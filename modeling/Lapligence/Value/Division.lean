import Lapligence.Value.KernelSpecs

/-!
# Division and remainder

`g4_divmod` of `value_gmp/backend.h` and `llg_gmp_sv4_divmod_wide` of `value_gmp/arithmetic.c`.  Both divide
the magnitudes of the extended operands and then give the result its sign; `divmodNat` is what they have in
common, a function on the numbers in the planes.  The narrow path computes it on single words, the wide path
with the long division of `Kernels`.

`g4Divmod_truncates` is the result: the quotient is truncated toward zero and the remainder has the sign of
the dividend.
-/

namespace Lapligence.Value

open WordLists Constraints BitVec

/-! ## The operations -/

/-- `g4_maxw`. -/
def g4Maxw (a b : G4) : ℕ := if a.width > b.width then a.width else b.width

/-- The loop of `negate_words`. -/
def negateCarry (carry : BitVec 64) : Words → Words
  | [] => []
  | a :: rest =>
    let x := ~~~a
    let r := x + carry
    r :: negateCarry (if r < x then 1#64 else 0#64) rest

/-- `negate_words`. -/
def negateWords (a : Words) (w : ℕ) : Words := maskTop (negateCarry 1#64 a) w

/-- `llg_gmp_sv4_divmod_wide`. -/
def llgGmpSv4DivmodWide (a b : G4) (remainder : Bool) : G4 :=
  let w := g4Maxw a b
  let s := a.isSigned && b.isSigned
  if llgGmpSv4IsUnknown a ∨ llgGmpSv4IsUnknown b then llgGmpSv4X w s
  else
    let n := g4Words w
    let x := llgGmpSv4ExtendPlane w (some a.a) a.width s
    let y := llgGmpSv4ExtendPlane w (some b.a) b.width s
    if ¬y.any (· ≠ 0) then llgGmpSv4X w s
    else
      let xn : Bool := s ∧ (x.getD (n - 1) 0 >>> ((w - 1) % 64)) &&& 1#64 ≠ 0
      let yn : Bool := s ∧ (y.getD (n - 1) 0 >>> ((w - 1) % 64)) &&& 1#64 ≠ 0
      let x := if xn then negateWords x w else x
      let y := if yn then negateWords y w else y
      let out := llgGmpSv4KernelDiv x y n remainder
      let out := if if remainder then xn else xn != yn then negateWords out w else out
      llgGmpSv4Finish { llgGmpSv4New w s false with a := out }

/-- `g4_divmod`. -/
def g4Divmod (a b : G4) (remainder : Bool) : G4 :=
  let w := g4Maxw a b
  let s := a.isSigned && b.isSigned
  if w > 64 then llgGmpSv4DivmodWide a b remainder
  else if a.smallB ||| b.smallB ≠ 0 then llgGmpSv4X w s
  else
    let x := g4ExtendWord a.smallA a.width w s
    let y := g4ExtendWord b.smallA b.width w s
    if y = 0 then llgGmpSv4X w s
    else
      let xn : Bool := s ∧ w ≠ 0 ∧ (x >>> (w - 1)) &&& 1#64 ≠ 0
      let yn : Bool := s ∧ w ≠ 0 ∧ (y >>> (w - 1)) &&& 1#64 ≠ 0
      let x := if xn then (0 - x) &&& g4Mask w else x
      let y := if yn then (0 - y) &&& g4Mask w else y
      let r := if remainder then x % y else x / y
      let r := if if remainder then xn else xn != yn then 0 - r else r
      g4Small r 0 w s

/-! ## Division of signed numbers by their magnitudes -/

/-- The integer with the bits of `x`. -/
def intNat (sign : Bool) (w x : ℕ) : ℤ := if sign then (BitVec.ofNat w x).toInt else x

/-- The sign bit. -/
def isNegative (sign : Bool) (w x : ℕ) : Bool := sign && x.testBit (w - 1)

def magnitude (sign : Bool) (w x : ℕ) : ℕ := if isNegative sign w x then (2 ^ w - x) % 2 ^ w else x

/-- Quotient or remainder of two numbers of `w` bits, by their magnitudes. -/
def divmodNat (sign : Bool) (w x y : ℕ) (remainder : Bool) : ℕ :=
  let xn := isNegative sign w x
  let r := if remainder then magnitude sign w x % magnitude sign w y
    else magnitude sign w x / magnitude sign w y
  if if remainder then xn else xn != isNegative sign w y then (2 ^ w - r) % 2 ^ w else r

section Magnitude

variable {sign : Bool} {w x y : ℕ}

lemma magnitude_lt (hx : x < 2 ^ w) : magnitude sign w x < 2 ^ w := by
  rw [magnitude]
  split_ifs
  · exact Nat.mod_lt _ (Nat.two_pow_pos w)
  · exact hx

lemma intNat_eq (hx : x < 2 ^ w) :
    intNat sign w x = if isNegative sign w x then -(magnitude sign w x : ℤ) else magnitude sign w x := by
  cases sign with
  | false => simp [intNat, isNegative, magnitude]
  | true =>
    have hmsb : (BitVec.ofNat w x).msb = isNegative true w x := by
      rw [msb_eq_getLsbD_last, getLsbD_ofNat, isNegative, Bool.true_and]
      rcases Nat.eq_zero_or_pos w with rfl | hw
      · obtain rfl : x = 0 := by simpa using hx
        simp
      · simp [hw]
    have htoNat : (BitVec.ofNat w x).toNat = x := by
      rw [toNat_ofNat, Nat.mod_eq_of_lt hx]
    rw [intNat, if_pos rfl, toInt_eq_msb_cond, hmsb, htoNat, magnitude]
    by_cases hneg : isNegative true w x = true
    · have hne : x ≠ 0 := by
        rintro rfl
        simp [isNegative] at hneg
      rw [if_pos hneg, if_pos hneg, if_pos hneg, Nat.mod_eq_of_lt (by omega), Nat.cast_sub hx.le]
      ring
    · rw [if_neg hneg, if_neg hneg, if_neg hneg]

lemma intNat_modEq (sign : Bool) (w x : ℕ) : intNat sign w x ≡ x [ZMOD 2 ^ w] := by
  cases sign with
  | false => rfl
  | true =>
    rw [intNat, if_pos rfl, toInt_ofNat']
    have h : ((x : ℤ).bmod (2 ^ w)) % ((2 ^ w : ℕ) : ℤ) = x % ((2 ^ w : ℕ) : ℤ) := Int.bmod_emod
    rwa [Nat.cast_pow, Nat.cast_ofNat] at h

lemma intNat_eq_zero_iff (hx : x < 2 ^ w) : intNat sign w x = 0 ↔ x = 0 := by
  constructor
  · intro hzero
    have hmod := intNat_modEq sign w x
    rw [hzero] at hmod
    have hdvd : 2 ^ w ∣ x := by
      have := (Int.modEq_zero_iff_dvd.1 hmod.symm)
      exact_mod_cast this
    exact Nat.eq_zero_of_dvd_of_lt hdvd hx
  · rintro rfl
    cases sign <;> simp [intNat]

/-- Extension keeps the integer. -/
lemma intNat_extendNat {source : ℕ} (hsource : source ≤ w) (hx : x < 2 ^ source) :
    intNat sign w (extendNat w source sign x) = intNat sign source x := by
  cases sign with
  | false =>
    have hlt : x < 2 ^ w := hx.trans_le (Nat.pow_le_pow_right (by decide) hsource)
    simp [intNat, extendNat, Nat.mod_eq_of_lt hlt]
  | true =>
    rw [intNat, intNat, if_pos rfl, if_pos rfl, extendNat, if_pos rfl, ofNat_toNat,
      setWidth_eq, toInt_signExtend_of_le hsource]

/-- Negation in two's complement. -/
lemma neg_modEq {r : ℕ} (hr : r ≤ 2 ^ w) : (((2 ^ w - r) % 2 ^ w : ℕ) : ℤ) ≡ -r [ZMOD 2 ^ w] := by
  have hcast : (((2 ^ w - r) % 2 ^ w : ℕ) : ℤ) = (2 ^ w - r) % 2 ^ w := by
    rw [Int.natCast_mod, Nat.cast_sub hr]
    norm_num
  rw [hcast]
  refine (Int.mod_modEq _ _).trans ?_
  rw [sub_eq_neg_add]
  exact Int.add_modEq_right

/-- The magnitude of the result is not larger than that of the dividend. -/
lemma result_lt (hx : x < 2 ^ w) (m : ℕ) (remainder : Bool) :
    (if remainder then magnitude sign w x % m else magnitude sign w x / m) < 2 ^ w := by
  have hlt := @magnitude_lt sign w x hx
  split_ifs
  · exact (Nat.mod_le _ _).trans_lt hlt
  · exact (Nat.div_le_self _ _).trans_lt hlt

/-- Division of the magnitudes is truncating division. -/
lemma divmodNat_modEq (hx : x < 2 ^ w) (hy : y < 2 ^ w) (remainder : Bool) :
    (divmodNat sign w x y remainder : ℤ) ≡
      if remainder then (intNat sign w x).tmod (intNat sign w y)
      else (intNat sign w x).tdiv (intNat sign w y) [ZMOD 2 ^ w] := by
  have hlt := (@result_lt sign w x hx (magnitude sign w y) remainder).le
  rw [intNat_eq hx, intNat_eq hy]
  simp only [divmodNat]
  cases remainder with
  | true =>
    simp only [if_true] at hlt ⊢
    cases isNegative sign w x <;> cases isNegative sign w y <;>
      simp [Int.neg_tmod, Int.tmod_neg, ← Int.ofNat_tmod]
    · exact neg_modEq hlt
    · exact neg_modEq hlt
  | false =>
    simp only [Bool.false_eq_true, if_false] at hlt ⊢
    cases isNegative sign w x <;> cases isNegative sign w y <;>
      simp [Int.neg_tdiv, Int.tdiv_neg]
    · exact neg_modEq hlt
    · exact neg_modEq hlt

/-- A remainder is between zero and the dividend. -/
lemma tmod_range {h : ℤ} (a b : ℤ) (hlow : -h ≤ a) (hhigh : a < h) : -h ≤ a.tmod b ∧ a.tmod b < h := by
  have habs : (a.tmod b).natAbs ≤ a.natAbs := by
    rw [Int.natAbs_tmod]
    exact Nat.mod_le _ _
  rcases le_total 0 a with hpos | hneg
  · have := Int.tmod_nonneg b hpos
    omega
  · have := Int.tmod_nonneg b (Int.neg_nonneg_of_nonpos hneg)
    rw [Int.neg_tmod] at this
    omega

/-- The remainder fits the width. -/
lemma intNat_divmodNat (hx : x < 2 ^ w) (hy : y < 2 ^ w) :
    intNat sign w (divmodNat sign w x y true) = (intNat sign w x).tmod (intNat sign w y) := by
  cases sign with
  | false =>
    rw [intNat, intNat, intNat]
    exact Int.ofNat_tmod x y
  | true =>
    have hmod := @divmodNat_modEq true w x y hx hy true
    rw [if_pos rfl] at hmod
    rcases Nat.eq_zero_or_pos w with rfl | hw
    · obtain rfl : x = 0 := by simpa using hx
      simp [intNat, divmodNat, isNegative, magnitude]
    obtain ⟨hlow, hhigh⟩ := tmod_range (intNat true w x) (intNat true w y)
      (BitVec.le_toInt (BitVec.ofNat w x)) toInt_lt
    generalize (intNat true w x).tmod (intNat true w y) = t at *
    have hpow : ((2 ^ w : ℕ) : ℤ) = 2 * 2 ^ (w - 1) := by
      rw [← pow_succ', Nat.sub_add_cancel hw]
      norm_num
    have hemod : (divmodNat true w x y true : ℤ) % ((2 ^ w : ℕ) : ℤ) = t % ((2 ^ w : ℕ) : ℤ) := by
      rw [Nat.cast_pow, Nat.cast_ofNat]
      exact hmod
    rw [intNat, if_pos rfl, toInt_ofNat', ← Int.emod_bmod, hemod, Int.emod_bmod]
    exact Int.bmod_eq_of_le (by omega) (by omega)

end Magnitude

/-! ## The two paths -/

lemma g4Maxw_eq (a b : G4) : g4Maxw a b = max a.width b.width := by
  rw [g4Maxw]
  split_ifs <;> omega

/-- The carry of the loop is the one of the reference arithmetic. -/
lemma negateCarry_eq (ws : Words) (c : Bool) : negateCarry (flagWord c) ws = bvNegWords ws c := by
  induction ws generalizing c with
  | nil => rfl
  | cons a ws ih =>
    have hcarry : (if ~~~a + flagWord c < ~~~a then 1#64 else 0#64) =
        flagWord (c && ~~~a + flagWord c == 0) := by
      have hsum := toNat_neg_flag a c
      have ha := a.isLt
      have hnot : (~~~a).toNat = 2 ^ 64 - 1 - a.toNat := toNat_not
      have hiff : ~~~a + flagWord c < ~~~a ↔ (c && ~~~a + flagWord c == 0) = true := by
        rw [BitVec.lt_def, hnot]
        generalize (c && ~~~a + flagWord c == 0) = flag at hsum
        generalize (~~~a + flagWord c).toNat = t at hsum
        cases flag <;> cases c <;> simp at hsum ⊢ <;> omega
      by_cases hlt : ~~~a + flagWord c < ~~~a
      · rw [if_pos hlt, hiff.1 hlt]
        rfl
      · rw [if_neg hlt, Bool.eq_false_iff.2 (mt hiff.2 hlt)]
        rfl
    rw [negateCarry, bvNegWords, hcarry, ih]

variable {ws : Words} {w x : ℕ}

lemma holds_negateWords (hw : 0 < w) (h : Holds w ws x) :
    Holds w (negateWords ws w) ((2 ^ w - x) % 2 ^ w) := by
  rw [negateWords, maskTop_eq_bvMask hw, show (1#64) = flagWord true from rfl, negateCarry_eq]
  exact h.bvNeg

lemma signBit_iff (hw : 0 < w) (h : Holds w ws x) :
    (ws.getD (g4Words w - 1) 0 >>> ((w - 1) % 64)) &&& 1#64 ≠ 0 ↔ x.testBit (w - 1) = true := by
  have hlast : g4Words w - 1 = (w - 1) / 64 := by
    rw [g4Words]
    omega
  rw [shift_and_one_ne_zero, hlast, ← testBit_wordsNat, h.value]

/-- The test for a negative number on words. -/
lemma negative_words_iff {sign : Bool} (hw : 0 < w) (h : Holds w ws x) :
    (sign = true ∧ (ws.getD (g4Words w - 1) 0 >>> ((w - 1) % 64)) &&& 1#64 ≠ 0) ↔ isNegative sign w x = true := by
  rw [signBit_iff hw h, isNegative, Bool.and_eq_true]

/-- The test for a negative number on one word. -/
lemma negative_word_iff {sign : Bool} {z : BitVec 64} (hz : z.toNat < 2 ^ w) :
    (sign = true ∧ w ≠ 0 ∧ (z >>> (w - 1)) &&& 1#64 ≠ 0) ↔ isNegative sign w z.toNat = true := by
  rw [isNegative, Bool.and_eq_true, shift_and_one_ne_zero, testBit_toNat]
  refine and_congr_right' (and_iff_right_of_imp ?_)
  rintro hbit rfl
  have hz0 : z = 0 := eq_of_toNat_eq (by simpa using hz)
  simp [hz0] at hbit

lemma holds_magnitude (hw : 0 < w) (h : Holds w ws x) (sign : Bool) :
    Holds w (if isNegative sign w x then negateWords ws w else ws) (magnitude sign w x) := by
  rw [magnitude]
  split_ifs
  · exact holds_negateWords hw h
  · exact h

lemma magnitude_ne_zero {sign : Bool} (hx : x < 2 ^ w) (hne : x ≠ 0) :
    magnitude sign w x ≠ 0 := by
  rw [magnitude]
  split_ifs
  · rw [Nat.mod_eq_of_lt (by omega)]
    omega
  · exact hne

/-- What both paths return, from the numbers in the extended operands. -/
def DividesAs (a b : G4) (remainder : Bool) (out : G4) : Prop :=
  let w := g4Maxw a b
  let s := a.isSigned && b.isSigned
  let x := extendNat w a.width s a.aNat
  let y := extendNat w b.width s b.aNat
  if a.bNat ≠ 0 ∨ b.bNat ≠ 0 ∨ y = 0 then out = llgGmpSv4X w s
  else out.Canonical ∧ out.width = w ∧ out.isSigned = s ∧ out.bNat = 0 ∧
    out.aNat = divmodNat s w x y remainder

section Paths

variable {a b : G4}

/-- The wide path. -/
lemma llgGmpSv4DivmodWide_spec (ha : a.Canonical) (hb : b.Canonical) (hw : 64 < g4Maxw a b)
    (remainder : Bool) : DividesAs a b remainder (llgGmpSv4DivmodWide a b remainder) := by
  simp only [DividesAs, llgGmpSv4DivmodWide]
  generalize g4Maxw a b = w at *
  generalize (a.isSigned && b.isSigned) = s
  have hpos : 0 < w := by omega
  by_cases hunknown : a.bNat ≠ 0 ∨ b.bNat ≠ 0
  · rw [if_pos (hunknown.imp ha.isUnknown_iff.2 hb.isUnknown_iff.2),
      if_pos (hunknown.imp_right .inl)]
  have hx := holds_llgGmpSv4ExtendPlane hpos ha.holds_a s
  have hy := holds_llgGmpSv4ExtendPlane hpos hb.holds_a s
  rw [if_neg (mt (Or.imp ha.isUnknown_iff.1 hb.isUnknown_iff.1) hunknown)]
  generalize llgGmpSv4ExtendPlane w (some a.a) a.width s = xs at *
  generalize llgGmpSv4ExtendPlane w (some b.a) b.width s = ys at *
  generalize extendNat w a.width s a.aNat = x at *
  generalize extendNat w b.width s b.aNat = y at *
  have hany : ys.any (· ≠ 0) = true ↔ y ≠ 0 := by rw [bNat_eq_zero_iff, hy.value]
  by_cases hzero : y = 0
  · rw [if_pos (mt hany.1 (not_not.2 hzero)), if_pos (.inr (.inr hzero))]
  rw [if_neg (not_not.2 (hany.2 hzero)), if_neg fun h => h.elim (hunknown ∘ .inl) fun h =>
    h.elim (hunknown ∘ .inr) hzero]
  simp only [negative_words_iff hpos hx, negative_words_iff hpos hy, Bool.decide_eq_true]
  have hmx := holds_magnitude hpos hx s
  have hmy := holds_magnitude hpos hy s
  generalize (if isNegative s w x then negateWords xs w else xs) = mx at *
  generalize (if isNegative s w y then negateWords ys w else ys) = my at *
  have hlen : ∀ {ws v}, Holds w ws v → ws.length = g4Words w :=
    fun h => h.length.trans (crWords_of_pos hpos)
  obtain ⟨hlength, hvalue⟩ := llgGmpSv4KernelDiv_spec remainder (hlen hmx) (hlen hmy)
    (by rw [hmy.value]; exact magnitude_ne_zero hy.lt hzero)
  rw [hmx.value, hmy.value] at hvalue
  have hout : Holds w (llgGmpSv4KernelDiv mx my (g4Words w) remainder) _ :=
    ⟨hlength.trans (crWords_of_pos hpos).symm, hvalue, result_lt hx.lt _ _⟩
  have hresult : Holds w (if if remainder then isNegative s w x else isNegative s w x != isNegative s w y
      then negateWords (llgGmpSv4KernelDiv mx my (g4Words w) remainder) w
      else llgGmpSv4KernelDiv mx my (g4Words w) remainder) (divmodNat s w x y remainder) := by
    simp only [divmodNat]
    by_cases hflip : (if remainder = true then isNegative s w x
        else isNegative s w x != isNegative s w y) = true
    · rw [if_pos hflip, if_pos hflip]
      exact holds_negateWords hpos hout
    · rw [if_neg hflip, if_neg hflip]
      exact hout
  generalize (if if remainder then isNegative s w x else isNegative s w x != isNegative s w y
      then negateWords (llgGmpSv4KernelDiv mx my (g4Words w) remainder) w
      else llgGmpSv4KernelDiv mx my (g4Words w) remainder) = out at *
  have hnew : ({ llgGmpSv4New w s false with a := out } : G4) = ⟨w, s, out, none⟩ := by
    simp [llgGmpSv4New, hw]
  rw [hnew]
  obtain ⟨hcanonical, hwidth, hsigned, haNat, hbNat⟩ :=
    llgGmpSv4Finish_spec (v := ⟨w, s, out, none⟩) hw (hlen hresult) (by simp)
  refine ⟨hcanonical, hwidth, hsigned, hbNat.trans (Nat.zero_mod _), haNat.trans ?_⟩
  rw [G4.aNat, hresult.value, Nat.mod_eq_of_lt hresult.lt]

/-- Negation of a word, cut to the width. -/
lemma toNat_neg_and_g4Mask {w : ℕ} (hw : w ≤ 64) {x : BitVec 64} (hx : x.toNat < 2 ^ w) :
    ((0 - x) &&& g4Mask w).toNat = (2 ^ w - x.toNat) % 2 ^ w := by
  have hdvd : 2 ^ w ∣ 2 ^ 64 := Nat.pow_dvd_pow 2 hw
  obtain ⟨k, hk⟩ := Nat.exists_eq_add_of_le (Nat.le_of_dvd (by decide) hdvd)
  obtain ⟨m, rfl⟩ : 2 ^ w ∣ k := (Nat.dvd_add_right (dvd_refl _)).1 (hk ▸ hdvd)
  rw [toNat_and_g4Mask, toNat_sub, Nat.mod_mod_of_dvd _ hdvd, hk,
    show 2 ^ w + 2 ^ w * m - x.toNat + (0 : BitVec 64).toNat = 2 ^ w - x.toNat + 2 ^ w * m by
      simp
      omega]
  exact Nat.add_mul_mod_self_left ..

lemma toNat_magnitude {w : ℕ} (hw : w ≤ 64) {x : BitVec 64} (hx : x.toNat < 2 ^ w) {sign : Bool} :
    (if isNegative sign w x.toNat = true then (0 - x) &&& g4Mask w else x).toNat = magnitude sign w x.toNat := by
  rw [magnitude]
  split_ifs
  · exact toNat_neg_and_g4Mask hw hx
  · rfl

/-- The narrow path. -/
lemma g4Divmod_narrow (ha : a.Canonical) (hb : b.Canonical) (hw : ¬g4Maxw a b > 64) (remainder : Bool) :
    DividesAs a b remainder (g4Divmod a b remainder) := by
  have hwidths := g4Maxw_eq a b
  simp only [DividesAs, g4Divmod, if_neg hw]
  have haw : a.width ≤ 64 := by omega
  have hbw : b.width ≤ 64 := by omega
  have hw64 : g4Maxw a b ≤ 64 := by omega
  have hunknown : a.smallB ||| b.smallB ≠ 0 ↔ a.bNat ≠ 0 ∨ b.bNat ≠ 0 := by
    rw [or_ne_zero_iff, ha.toNat_smallB haw, hb.toNat_smallB hbw]
  have hxw := toNat_g4ExtendWord haw hw64 (x := a.smallA) (by rw [ha.toNat_smallA haw]; exact ha.aNat_lt)
    (a.isSigned && b.isSigned)
  have hyw := toNat_g4ExtendWord hbw hw64 (x := b.smallA) (by rw [hb.toNat_smallA hbw]; exact hb.aNat_lt)
    (a.isSigned && b.isSigned)
  rw [ha.toNat_smallA haw] at hxw
  rw [hb.toNat_smallA hbw] at hyw
  have hx := extendNat_lt (g4Maxw a b) a.width (a.isSigned && b.isSigned) a.aNat
  have hy := extendNat_lt (g4Maxw a b) b.width (a.isSigned && b.isSigned) b.aNat
  rw [← hxw] at hx ⊢
  rw [← hyw] at hy ⊢
  generalize g4Maxw a b = w at *
  generalize (a.isSigned && b.isSigned) = s at *
  generalize g4ExtendWord a.smallA a.width w s = x at *
  generalize g4ExtendWord b.smallA b.width w s = y at *
  by_cases hab : a.bNat ≠ 0 ∨ b.bNat ≠ 0
  · rw [if_pos (hunknown.2 hab), if_pos (hab.imp_right .inl)]
  rw [if_neg (mt hunknown.1 hab)]
  by_cases hzero : y = 0
  · rw [if_pos hzero, if_pos (.inr (.inr (by rw [hzero]; rfl)))]
  have hyne : y.toNat ≠ 0 := fun h => hzero (eq_of_toNat_eq h)
  rw [if_neg hzero, if_neg fun h => h.elim (hab ∘ .inl) fun h => h.elim (hab ∘ .inr) hyne]
  simp only [negative_word_iff hx, negative_word_iff hy, Bool.decide_eq_true]
  have hmx := @toNat_magnitude _ hw64 _ hx s
  have hmy := @toNat_magnitude _ hw64 _ hy s
  generalize (if isNegative s w x.toNat = true then (0 - x) &&& g4Mask w else x) = mx at *
  generalize (if isNegative s w y.toNat = true then (0 - y) &&& g4Mask w else y) = my at *
  have hr : (if remainder = true then mx % my else mx / my).toNat =
      if remainder then magnitude s w x.toNat % magnitude s w y.toNat
      else magnitude s w x.toNat / magnitude s w y.toNat := by
    rw [← hmx, ← hmy]
    cases remainder with
    | true => exact toNat_umod
    | false => exact toNat_udiv
  have hrlt := @result_lt s _ _ hx (magnitude s w y.toNat) remainder
  rw [← hr] at hrlt
  simp only [divmodNat]
  rw [← hr]
  generalize (if remainder = true then mx % my else mx / my) = r at *
  by_cases hflip : (if remainder = true then isNegative s w x.toNat
      else isNegative s w x.toNat != isNegative s w y.toNat) = true
  · rw [if_pos hflip, if_pos hflip]
    obtain ⟨hcanonical, haNat, hbNat⟩ := g4Small_canonical hw64 (0 - r) 0 s
    rw [← toNat_and_g4Mask, toNat_neg_and_g4Mask hw64 hrlt] at haNat
    exact ⟨hcanonical, rfl, rfl, hbNat.trans (Nat.zero_mod _), haNat⟩
  · rw [if_neg hflip, if_neg hflip]
    obtain ⟨hcanonical, haNat, hbNat⟩ := g4Small_canonical hw64 r 0 s
    rw [Nat.mod_eq_of_lt hrlt] at haNat
    exact ⟨hcanonical, rfl, rfl, hbNat.trans (Nat.zero_mod _), haNat⟩

lemma g4Divmod_spec (ha : a.Canonical) (hb : b.Canonical) (remainder : Bool) :
    DividesAs a b remainder (g4Divmod a b remainder) := by
  by_cases hw : g4Maxw a b > 64
  · have hwide : g4Divmod a b remainder = llgGmpSv4DivmodWide a b remainder := if_pos hw
    rw [hwide]
    exact llgGmpSv4DivmodWide_spec ha hb hw remainder
  · exact g4Divmod_narrow ha hb hw remainder

/-! ## The result -/

/-- Division and remainder of 4-state values.  With an X or Z bit in an operand, or a divisor that is zero,
all bits of the results are X.  In any other case the quotient is truncated toward zero and the remainder
has the sign of the dividend; the quotient of the most negative number by `-1` wraps around. -/
theorem g4Divmod_truncates (ha : a.Canonical) (hb : b.Canonical) :
    let w := max a.width b.width
    let s := a.isSigned && b.isSigned
    let x := a.intAs s
    let y := b.intAs s
    let q := g4Divmod a b false
    let r := g4Divmod a b true
    (q.Canonical ∧ q.width = w ∧ q.isSigned = s) ∧ (r.Canonical ∧ r.width = w ∧ r.isSigned = s) ∧
    (a.bNat ≠ 0 ∨ b.bNat ≠ 0 ∨ y = 0 →
      (q.aNat = 2 ^ w - 1 ∧ q.bNat = 2 ^ w - 1) ∧ (r.aNat = 2 ^ w - 1 ∧ r.bNat = 2 ^ w - 1)) ∧
    (a.bNat = 0 → b.bNat = 0 → y ≠ 0 →
      q.bNat = 0 ∧ q.aNat ≡ x.tdiv y [ZMOD 2 ^ w] ∧ r.bNat = 0 ∧ r.intAs s = x.tmod y ∧
      q.intAs s * y + r.intAs s ≡ x [ZMOD 2 ^ w] ∧ |r.intAs s| < |y|) := by
  have hq := g4Divmod_spec ha hb false
  have hr := g4Divmod_spec ha hb true
  simp only [DividesAs, g4Maxw_eq] at hq hr
  generalize (a.isSigned && b.isSigned) = s at *
  generalize hw : max a.width b.width = w at *
  generalize g4Divmod a b false = q at *
  generalize g4Divmod a b true = r at *
  have hx := extendNat_lt w a.width s a.aNat
  have hy := extendNat_lt w b.width s b.aNat
  have hxint : intNat s w (extendNat w a.width s a.aNat) = a.intAs s :=
    intNat_extendNat (by omega) ha.aNat_lt
  have hyint : intNat s w (extendNat w b.width s b.aNat) = b.intAs s :=
    intNat_extendNat (by omega) hb.aNat_lt
  have hzero := @intNat_eq_zero_iff s _ _ hy
  rw [hyint] at hzero
  simp only [← hzero] at hq hr
  by_cases hunknown : a.bNat ≠ 0 ∨ b.bNat ≠ 0 ∨ b.intAs s = 0
  · rw [if_pos hunknown] at hq hr
    subst hq hr
    obtain ⟨hcanonical, hwidth, hsigned, haNat, hbNat⟩ := llgGmpSv4X_spec w s
    refine ⟨⟨hcanonical, hwidth, hsigned⟩, ⟨hcanonical, hwidth, hsigned⟩,
      fun _ => ⟨⟨haNat, hbNat⟩, haNat, hbNat⟩, fun hab hbb hne => ?_⟩
    exact (hunknown.elim (· hab) fun h => h.elim (· hbb) hne).elim
  rw [if_neg hunknown] at hq hr
  obtain ⟨hqc, hqw, hqs, hqb, hqa⟩ := hq
  obtain ⟨hrc, hrw, hrs, hrb, hra⟩ := hr
  refine ⟨⟨hqc, hqw, hqs⟩, ⟨hrc, hrw, hrs⟩, fun h => (hunknown h).elim, fun _ _ hne => ?_⟩
  have hquot := @divmodNat_modEq s _ _ _ hx hy false
  rw [if_neg (by simp), hxint, hyint, ← hqa] at hquot
  have hrem : r.intAs s = (a.intAs s).tmod (b.intAs s) := by
    rw [← hxint, ← hyint, ← intNat_divmodNat hx hy, ← hra, ← hrw]
    rfl
  refine ⟨hqb, hquot, hrb, hrem, ?_, ?_⟩
  · have hqint : q.intAs s ≡ q.aNat [ZMOD 2 ^ w] := hqw ▸ intNat_modEq s q.width q.aNat
    rw [hrem]
    calc q.intAs s * b.intAs s + (a.intAs s).tmod (b.intAs s)
        ≡ (a.intAs s).tdiv (b.intAs s) * b.intAs s + (a.intAs s).tmod (b.intAs s) [ZMOD 2 ^ w] :=
          ((hqint.trans hquot).mul_right _).add_right _
      _ = a.intAs s := by rw [Int.mul_comm, Int.mul_tdiv_add_tmod]
  · rw [hrem, Int.abs_eq_natAbs, Int.abs_eq_natAbs, Int.natAbs_tmod]
    exact_mod_cast Nat.mod_lt _ (Int.natAbs_pos.2 hne)

end Paths

/-- The most negative number of 65 bits. -/
def minWide : G4 := ⟨65, true, [0, 1], none⟩

/-- The number `-1` with three bits. -/
def minusOne : G4 := ⟨3, true, [7], some [0]⟩

lemma minWide_canonical : minWide.Canonical :=
  ⟨⟨by decide, by decide, by decide⟩, by simp [minWide], by decide⟩

lemma minusOne_canonical : minusOne.Canonical :=
  ⟨⟨by decide, by decide, by decide⟩, by rintro _ ⟨⟩; exact ⟨by decide, by decide, by decide⟩, by decide⟩

/-- The quotient of the most negative number by `-1` is that number again. -/
theorem g4Divmod_minWide_minusOne :
    minWide.bNat = 0 ∧ minusOne.bNat = 0 ∧ minusOne.intAs true ≠ 0 ∧
    (g4Divmod minWide minusOne false).aNat ≡
      (minWide.intAs true).tdiv (minusOne.intAs true) [ZMOD 2 ^ 65] ∧
    (g4Divmod minWide minusOne true).intAs true = (minWide.intAs true).tmod (minusOne.intAs true) := by
  have hzero : minusOne.intAs true ≠ 0 := by decide
  obtain ⟨-, -, -, hresult⟩ := g4Divmod_truncates minWide_canonical minusOne_canonical
  obtain ⟨-, hquot, -, hrem, -⟩ := hresult rfl rfl hzero
  exact ⟨rfl, rfl, hzero, hquot, hrem⟩

example : g4Divmod minWide minusOne false = minWide := by decide +kernel

end Lapligence.Value
