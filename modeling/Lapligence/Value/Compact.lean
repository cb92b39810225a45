import Lapligence.Constraints.BitVectorSpecs

/-!
# Compact values

The packed values of the production backend (`value_gmp/backend.h`, `storage.c`).  A value of at most 64
bits stores its two planes in place, a wider one in arrays of 64-bit words, where the plane `b` exists
only for values with X or Z bits.  `g4_a` and `g4_b` view both forms as arrays, and so does `G4`: a narrow
value has one word in each plane.

`G4.Canonical` is the invariant of the representation.  `aNat` and `bNat` are the numbers in the two
planes of a value; every function has a lemma that says what it does to them.
-/

namespace Lapligence.Value

open WordLists Constraints Nat Option List

/-! ## Values -/

/-- `llg_gmp_sv4_t`. -/
structure G4 where
  width : ℕ
  isSigned : Bool
  a : Words
  b : Option Words
deriving DecidableEq, Repr

/-- `LLG_GMP_SUPPORTED_WIDTH_LIMIT`. -/
def llgGmpSupportedWidthLimit : ℕ := 2 ^ 20

/-- `LLG_GMP_MASK`. -/
def g4Mask (width : ℕ) : BitVec 64 :=
  if width = 0 then 0 else if width ≥ 64 then BitVec.allOnes 64 else BitVec.allOnes 64 >>> (64 - width)

/-- `g4_topmask`. -/
def g4Topmask (width : ℕ) : BitVec 64 :=
  g4Mask (if width % 64 ≠ 0 then width % 64 else 64)

/-- `llg_gmp_sv4_words` for a width. -/
def g4Words (width : ℕ) : ℕ := (width + 63) / 64

/-- `g4_small`. -/
def g4Small (a b : BitVec 64) (width : ℕ) (sign : Bool) : G4 :=
  ⟨width, sign, [a &&& g4Mask width], some [b &&& g4Mask width]⟩

/-- `data.small.a`. -/
def G4.smallA (v : G4) : BitVec 64 := v.a.headD 0

/-- `data.small.b`. -/
def G4.smallB (v : G4) : BitVec 64 := (v.b.getD []).headD 0

/-- `llg_gmp_sv4_is_unknown`. -/
def llgGmpSv4IsUnknown (v : G4) : Bool :=
  if v.width ≤ 64 then v.smallB ≠ 0 else v.b.isSome

/-- `llg_gmp_sv4_new`. -/
def llgGmpSv4New (width : ℕ) (sign withB : Bool) : G4 :=
  if width > 64 then
    ⟨width, sign, replicate (g4Words width) 0,
      if withB then some (replicate (g4Words width) 0) else none⟩
  else ⟨width, sign, [0], some [0]⟩

/-- `a[n - 1] &= g4_topmask(width)`. -/
def maskTop (ws : Words) (width : ℕ) : Words :=
  ws.modify (g4Words width - 1) (· &&& g4Topmask width)

/-- `llg_gmp_sv4_finish`. -/
def llgGmpSv4Finish (v : G4) : G4 :=
  if g4Words v.width = 0 then v
  else
    let b := v.b.map (maskTop · v.width)
    { v with
      a := maskTop v.a v.width
      b := if v.width ≤ 64 then b else b.filter fun b => b.any (· ≠ 0) }

/-- `llg_gmp_sv4_fill_wide`. -/
def llgGmpSv4FillWide (state : ℕ) (width : ℕ) (sign : Bool) : G4 :=
  let ones := maskTop (replicate (g4Words width) (BitVec.allOnes 64)) width
  let zeros := replicate (g4Words width) 0
  ⟨width, sign, if state = 1 ∨ state = 2 then ones else maskTop zeros width,
    if state ≥ 2 then some ones else none⟩

/-- `llg_gmp_sv4_fill`: the states are 0, 1, 2 for X and 3 for Z. -/
def llgGmpSv4Fill (state : ℕ) (width : ℕ) (sign : Bool) : G4 :=
  if width ≤ 64 then
    g4Small (if state = 1 ∨ state = 2 then BitVec.allOnes 64 else 0)
      (if state ≥ 2 then BitVec.allOnes 64 else 0) width sign
  else llgGmpSv4FillWide state width sign

/-- `llg_gmp_sv4_x`. -/
def llgGmpSv4X (width : ℕ) (sign : Bool) : G4 := llgGmpSv4Fill 2 width sign

/-- `g4_extend`, on one word. -/
def g4ExtendWord (word : BitVec 64) (source width : ℕ) (sign : Bool) : BitVec 64 :=
  let word :=
    if sign ∧ source ≠ 0 ∧ width > source ∧ (word >>> (source - 1)) &&& 1#64 ≠ 0 then
      word ||| ~~~g4Mask source
    else word
  word &&& g4Mask width

/-- `llg_gmp_sv4_extend_plane` into an array for `width` bits; no input is a null pointer. -/
def llgGmpSv4ExtendPlane (width : ℕ) (input : Option Words) (source : ℕ) (sign : Bool) : Words :=
  let n := g4Words width
  let m := g4Words source
  let fill : BitVec 64 :=
    match input with
    | some input =>
      if sign ∧ source ≠ 0 ∧ (input.getD (m - 1) 0 >>> ((source - 1) % 64)) &&& 1#64 ≠ 0 then
        BitVec.allOnes 64
      else 0
    | none => 0
  let out := (range n).map fun i => if i < m then (input.getD []).getD i 0 else fill
  let out :=
    if source < width ∧ m ≠ 0 then out.modify (m - 1) (· ||| (fill &&& ~~~g4Topmask source)) else out
  maskTop out width

/-! ## What a value stands for -/

namespace G4

/-- The number in the plane `a`. -/
def aNat (v : G4) : ℕ := wordsNat v.a

/-- The number in the plane `b`: its bits are those that are X or Z. -/
def bNat (v : G4) : ℕ := ((v.b.map wordsNat).getD 0)

/-- The words above the width are zero, and a wide value has a plane `b` exactly if a bit is X or Z. -/
structure Canonical (v : G4) : Prop where
  holds_a : Holds v.width v.a v.aNat
  holds_b : ∀ b ∈ v.b, Holds v.width b v.bNat
  isSome_b : v.b.isSome = true ↔ v.width ≤ 64 ∨ v.bNat ≠ 0

/-- The integer of the plane `a`, read as a signed or an unsigned number. -/
def intAs (sign : Bool) (v : G4) : ℤ :=
  if sign then (BitVec.ofNat v.width v.aNat).toInt else v.aNat

end G4

/-! ## Masks -/

lemma getLsbD_g4Mask (width i : ℕ) : (g4Mask width).getLsbD i = decide (i < width ∧ i < 64) := by
  unfold g4Mask
  split_ifs with hzero hge
  · simp [hzero]
  · rw [BitVec.getLsbD_allOnes]
    congr 1
    apply propext
    omega
  · rw [BitVec.getLsbD_ushiftRight, BitVec.getLsbD_allOnes]
    congr 1
    apply propext
    omega

lemma toNat_and_g4Mask (x : BitVec 64) (width : ℕ) : (x &&& g4Mask width).toNat = x.toNat % 2 ^ width := by
  apply eq_of_testBit_eq
  intro i
  rw [BitVec.testBit_toNat, BitVec.getLsbD_and, getLsbD_g4Mask, testBit_mod_two_pow,
    BitVec.testBit_toNat]
  by_cases hi : i < 64
  · simp [hi, Bool.and_comm]
  · simp [BitVec.getLsbD_of_ge x i (by omega)]

variable {source width : ℕ}

lemma g4Topmask_of_full (h : width % 64 = 0) : g4Topmask width = BitVec.allOnes 64 := by
  rw [g4Topmask, if_neg (not_not.2 h)]
  rfl

lemma g4Topmask_of_partial (h : width % 64 ≠ 0) :
    g4Topmask width = (1#64 <<< (width % 64)) - 1 := by
  apply BitVec.eq_of_getLsbD_eq
  intro i hi
  rw [g4Topmask, if_pos h, getLsbD_g4Mask, getLsbD_lowMask (mod_lt _ (by decide))]
  simp [hi]

/-- The last word is masked as in the reference arithmetic. -/
lemma maskTop_eq_bvMask (hwidth : 0 < width) (ws : Words) :
    maskTop ws width = bvMask ws width := by
  have hn : g4Words width = crWords width := (crWords_of_pos hwidth).symm
  rw [maskTop, bvMask, if_neg (by omega), hn]
  by_cases htop : width % 64 = 0
  · rw [if_neg (not_not.2 htop), g4Topmask_of_full htop]
    simp only [BitVec.and_allOnes]
    exact modify_id ..
  · rw [if_pos htop, g4Topmask_of_partial htop]

lemma holds_maskTop (hwidth : 0 < width) {ws : Words} (hlen : ws.length = g4Words width) :
    Holds width (maskTop ws width) (wordsNat ws % 2 ^ width) := by
  rw [maskTop_eq_bvMask hwidth]
  exact holds_bvMask (hlen.trans (crWords_of_pos hwidth).symm)

/-! ## Narrow values -/

lemma holds_singleton (hwidth : width ≤ 64) {x : BitVec 64} (hx : x.toNat < 2 ^ width) :
    Holds width [x] x.toNat where
  length := by
    rw [crWords, length_singleton]
    split_ifs <;> omega
  value := by simp
  lt := hx

/-- A narrow array is one word. -/
lemma eq_singleton_of_holds {v : ℕ} {ws : Words} (hwidth : width ≤ 64) (h : Holds width ws v) :
    ∃ x : BitVec 64, ws = [x] ∧ x.toNat = v := by
  have hlen : ws.length = 1 := by
    rw [h.length, crWords]
    split_ifs <;> omega
  obtain ⟨x, rfl⟩ := length_eq_one_iff.1 hlen
  exact ⟨x, rfl, by simpa using h.value⟩

lemma g4Small_canonical (hwidth : width ≤ 64) (a b : BitVec 64) (sign : Bool) :
    (g4Small a b width sign).Canonical ∧ (g4Small a b width sign).aNat = a.toNat % 2 ^ width ∧
      (g4Small a b width sign).bNat = b.toNat % 2 ^ width := by
  have hmask : ∀ x : BitVec 64, Holds width [x &&& g4Mask width] (x.toNat % 2 ^ width) := by
    intro x
    rw [← toNat_and_g4Mask]
    exact holds_singleton hwidth (by
      rw [toNat_and_g4Mask]
      exact mod_lt _ (Nat.two_pow_pos width))
  have ha : (g4Small a b width sign).aNat = a.toNat % 2 ^ width := (hmask a).value
  have hb : (g4Small a b width sign).bNat = b.toNat % 2 ^ width := (hmask b).value
  refine ⟨⟨?_, ?_, ?_⟩, ha, hb⟩
  · rw [ha]
    exact hmask a
  · rw [hb]
    rintro _ ⟨⟩
    exact hmask b
  · simp [g4Small, hwidth]

section Canonical

variable {v : G4}

lemma G4.bNat_of_none (h : v.b = none) : v.bNat = 0 := by
  rw [G4.bNat, h]
  rfl

lemma G4.Canonical.aNat_lt (h : v.Canonical) : v.aNat < 2 ^ v.width := h.holds_a.lt

lemma G4.Canonical.bNat_lt (h : v.Canonical) : v.bNat < 2 ^ v.width := by
  cases hb : v.b with
  | none =>
    rw [G4.bNat_of_none hb]
    exact Nat.two_pow_pos _
  | some b => exact (h.holds_b b hb).lt

/-- The words of a narrow value. -/
lemma G4.Canonical.toNat_smallA (h : v.Canonical) (hwidth : v.width ≤ 64) : v.smallA.toNat = v.aNat := by
  obtain ⟨x, hx, hval⟩ := eq_singleton_of_holds hwidth h.holds_a
  rw [G4.smallA, hx]
  exact hval

lemma G4.Canonical.toNat_smallB (h : v.Canonical) (hwidth : v.width ≤ 64) : v.smallB.toNat = v.bNat := by
  obtain ⟨b, hb⟩ := isSome_iff_exists.1 (h.isSome_b.2 (.inl hwidth))
  obtain ⟨x, hx, hval⟩ := eq_singleton_of_holds hwidth (h.holds_b b hb)
  rw [G4.smallB, hb, getD_some, hx]
  exact hval

lemma G4.Canonical.smallB_ne_zero (h : v.Canonical) (hwidth : v.width ≤ 64) : v.smallB ≠ 0 ↔ v.bNat ≠ 0 := by
  rw [← h.toNat_smallB hwidth, ne_eq, ne_eq, BitVec.toNat_eq]
  rfl

/-- The test for X and Z bits. -/
lemma G4.Canonical.isUnknown_iff (h : v.Canonical) : llgGmpSv4IsUnknown v = true ↔ v.bNat ≠ 0 := by
  rw [llgGmpSv4IsUnknown]
  split_ifs with hwidth
  · rw [decide_eq_true_iff, h.smallB_ne_zero hwidth]
  · rw [h.isSome_b]
    exact or_iff_right hwidth

end Canonical

/-- A canonical value is determined by its type and the numbers in its planes. -/
lemma G4.Canonical.ext {u v : G4} (hu : u.Canonical) (hv : v.Canonical) (hwidth : u.width = v.width)
    (hsigned : u.isSigned = v.isSigned) (ha : u.aNat = v.aNat) (hb : u.bNat = v.bNat) : u = v := by
  have hplane : ∀ {xs ys : Words}, xs.length = crWords u.width → ys.length = crWords v.width →
      wordsNat xs = wordsNat ys → xs = ys :=
    fun hx hy => wordsNat_injective (hx.trans ((congrArg crWords hwidth).trans hy.symm))
  obtain ⟨w, s, a, b⟩ := u
  obtain ⟨w', s', a', b'⟩ := v
  obtain rfl : w = w' := hwidth
  obtain rfl : s = s' := hsigned
  obtain rfl : a = a' := hplane hu.holds_a.length hv.holds_a.length ha
  have hsome : b.isSome = b'.isSome := by
    rw [Bool.eq_iff_iff, hu.isSome_b, hv.isSome_b, hb]
  cases b with
  | none => cases b' with
    | none => rfl
    | some => exact nomatch hsome
  | some x => cases b' with
    | none => exact nomatch hsome
    | some y => rw [hplane (hu.holds_b x rfl).length (hv.holds_b y rfl).length hb]

/-! ## Construction of wide values -/

lemma bNat_eq_zero_iff {b : Words} : (b.any (· ≠ 0)) = true ↔ wordsNat b ≠ 0 := by
  rw [ne_eq, wordsNat_eq_zero]
  simp

/-- `llg_gmp_sv4_finish` makes a wide value canonical. -/
lemma llgGmpSv4Finish_spec {v : G4} (hwidth : 64 < v.width) (ha : v.a.length = g4Words v.width)
    (hb : ∀ b ∈ v.b, b.length = g4Words v.width) :
    (llgGmpSv4Finish v).Canonical ∧ (llgGmpSv4Finish v).width = v.width ∧
      (llgGmpSv4Finish v).isSigned = v.isSigned ∧ (llgGmpSv4Finish v).aNat = v.aNat % 2 ^ v.width ∧
      (llgGmpSv4Finish v).bNat = v.bNat % 2 ^ v.width := by
  have hpos : 0 < v.width := by omega
  have hn : g4Words v.width ≠ 0 := by
    rw [g4Words]
    omega
  have hmaskA := holds_maskTop hpos ha
  have hfinish : llgGmpSv4Finish v = ⟨v.width, v.isSigned, maskTop v.a v.width,
      (v.b.map (maskTop · v.width)).filter fun b => b.any (· ≠ 0)⟩ := by
    simp only [llgGmpSv4Finish, if_neg hn, if_neg (Nat.not_le.2 hwidth)]
  rw [hfinish]
  cases hvb : v.b with
  | none =>
    have hzero := G4.bNat_of_none hvb
    refine ⟨⟨?_, by simp, ?_⟩, rfl, rfl, hmaskA.value, ?_⟩
    · rw [G4.aNat, hmaskA.value]
      exact hmaskA
    · simp [G4.bNat]
      omega
    · rw [hzero, zero_mod]
      rfl
  | some b =>
    have hmaskB := holds_maskTop hpos (hb b hvb)
    have hval : v.bNat = wordsNat b := by
      rw [G4.bNat, hvb]
      rfl
    rw [map_some, hval]
    by_cases hany : (maskTop b v.width).any (· ≠ 0) = true
    · have hfilter : (some (maskTop b v.width)).filter (fun b => b.any (· ≠ 0)) =
          some (maskTop b v.width) := by
        rw [filter_some, if_pos hany]
      rw [hfilter]
      refine ⟨⟨?_, ?_, ?_⟩, rfl, rfl, hmaskA.value, hmaskB.value⟩
      · rw [G4.aNat, hmaskA.value]
        exact hmaskA
      · rintro _ ⟨⟩
        exact ⟨hmaskB.length, rfl, hmaskB.value.trans_lt hmaskB.lt⟩
      · simp only [isSome_some, true_iff]
        exact .inr (bNat_eq_zero_iff.1 hany)
    · have hfilter : (some (maskTop b v.width)).filter (fun b => b.any (· ≠ 0)) = none := by
        rw [filter_some, if_neg hany]
      have hzero : wordsNat b % 2 ^ v.width = 0 := by
        rw [← hmaskB.value]
        exact not_not.1 (mt bNat_eq_zero_iff.2 hany)
      rw [hfilter, hzero]
      refine ⟨⟨?_, by simp, ?_⟩, rfl, rfl, hmaskA.value, rfl⟩
      · rw [G4.aNat, hmaskA.value]
        exact hmaskA
      · simp [G4.bNat]
        omega

lemma wordsNat_replicate_allOnes (n : ℕ) :
    wordsNat (replicate n (BitVec.allOnes 64)) = 2 ^ (64 * n) - 1 := by
  apply eq_of_testBit_eq
  intro i
  rw [testBit_wordsNat, testBit_two_pow_sub_one, getD_eq_getElem?_getD, getElem?_replicate]
  by_cases hi : i / 64 < n
  · rw [if_pos hi, getD_some, BitVec.getLsbD_allOnes]
    congr 1
    apply propext
    omega
  · rw [if_neg hi]
    symm
    simp
    omega

/-- A wide value with a plane `b` that is not zero. -/
lemma canonical_some {x y : ℕ} (sign : Bool) {a b : Words}
    (ha : Holds width a x) (hb : Holds width b y) (hy : y ≠ 0) :
    let v : G4 := ⟨width, sign, a, some b⟩
    v.Canonical ∧ v.aNat = x ∧ v.bNat = y := by
  refine ⟨⟨⟨ha.length, rfl, ha.value.trans_lt ha.lt⟩, ?_, ?_⟩, ha.value, hb.value⟩
  · rintro _ ⟨⟩
    exact ⟨hb.length, rfl, hb.value.trans_lt hb.lt⟩
  · simpa [G4.bNat, hb.value] using .inr hy

/-- A wide value without a plane `b`. -/
lemma canonical_none {x : ℕ} (hwidth : 64 < width) (sign : Bool) {a : Words} (ha : Holds width a x) :
    let v : G4 := ⟨width, sign, a, none⟩
    v.Canonical ∧ v.aNat = x ∧ v.bNat = 0 := by
  refine ⟨⟨⟨ha.length, rfl, ha.value.trans_lt ha.lt⟩, by simp, ?_⟩, ha.value, rfl⟩
  simpa [G4.bNat] using hwidth

lemma ones_mod {n : ℕ} (hn : width ≤ n) : (2 ^ n - 1) % 2 ^ width = 2 ^ width - 1 := by
  apply eq_of_testBit_eq
  intro i
  rw [testBit_mod_two_pow, testBit_two_pow_sub_one, testBit_two_pow_sub_one, ← Bool.decide_and]
  congr 1
  apply propext
  omega

/-- `llg_gmp_sv4_fill` repeats one bit. -/
lemma llgGmpSv4Fill_spec (state width : ℕ) (sign : Bool) :
    (llgGmpSv4Fill state width sign).Canonical ∧ (llgGmpSv4Fill state width sign).width = width ∧
      (llgGmpSv4Fill state width sign).isSigned = sign ∧
      (llgGmpSv4Fill state width sign).aNat = (if state = 1 ∨ state = 2 then 2 ^ width - 1 else 0) ∧
      (llgGmpSv4Fill state width sign).bNat = if state ≥ 2 then 2 ^ width - 1 else 0 := by
  have hword : ∀ (p : Prop) [Decidable p], width ≤ 64 →
      (if p then BitVec.allOnes 64 else 0).toNat % 2 ^ width = if p then 2 ^ width - 1 else 0 := by
    intro p _ hwidth
    split_ifs
    · rw [BitVec.toNat_allOnes, ones_mod hwidth]
    · exact zero_mod _
  rw [llgGmpSv4Fill]
  by_cases hwidth : width ≤ 64
  · rw [if_pos hwidth]
    obtain ⟨hcanonical, ha, hb⟩ := g4Small_canonical hwidth
      (if state = 1 ∨ state = 2 then BitVec.allOnes 64 else 0)
      (if state ≥ 2 then BitVec.allOnes 64 else 0) sign
    exact ⟨hcanonical, rfl, rfl, ha.trans (hword _ hwidth), hb.trans (hword _ hwidth)⟩
  rw [if_neg hwidth]
  have hpos : 0 < width := by omega
  have hones := holds_maskTop hpos
    (show (replicate (g4Words width) (BitVec.allOnes 64)).length = g4Words width by simp)
  rw [wordsNat_replicate_allOnes, ones_mod (by rw [g4Words]; omega)] at hones
  have hzeros := holds_maskTop hpos
    (show (replicate (g4Words width) (0 : BitVec 64)).length = g4Words width by simp)
  rw [wordsNat_replicate_zero, zero_mod] at hzeros
  have hne : 2 ^ width - 1 ≠ 0 := by
    have : 2 ^ 1 ≤ 2 ^ width := Nat.pow_le_pow_right (by decide) hpos
    omega
  have ha : Holds width (llgGmpSv4FillWide state width sign).a
      (if state = 1 ∨ state = 2 then 2 ^ width - 1 else 0) := by
    simp only [llgGmpSv4FillWide]
    split_ifs
    · exact hones
    · exact hzeros
  have hwide : llgGmpSv4FillWide state width sign =
      ⟨width, sign, (llgGmpSv4FillWide state width sign).a, if state ≥ 2 then
        some (maskTop (replicate (g4Words width) (BitVec.allOnes 64)) width) else none⟩ := rfl
  rw [hwide]
  by_cases hstate : state ≥ 2
  · rw [if_pos hstate, if_pos hstate]
    obtain ⟨hcanonical, haNat, hbNat⟩ := canonical_some sign ha hones hne
    exact ⟨hcanonical, rfl, rfl, haNat, hbNat⟩
  · rw [if_neg hstate, if_neg hstate]
    obtain ⟨hcanonical, haNat, hbNat⟩ := canonical_none (by omega) sign ha
    exact ⟨hcanonical, rfl, rfl, haNat, hbNat⟩

/-- The value of `width` bits that are all X. -/
lemma llgGmpSv4X_spec (width : ℕ) (sign : Bool) :
    (llgGmpSv4X width sign).Canonical ∧ (llgGmpSv4X width sign).width = width ∧
      (llgGmpSv4X width sign).isSigned = sign ∧ (llgGmpSv4X width sign).aNat = 2 ^ width - 1 ∧
      (llgGmpSv4X width sign).bNat = 2 ^ width - 1 :=
  llgGmpSv4Fill_spec 2 width sign

/-! ## Extension -/

lemma or_ne_zero_iff {x y : BitVec 64} : x ||| y ≠ 0 ↔ x.toNat ≠ 0 ∨ y.toNat ≠ 0 := by
  have hor : x ||| y = 0 ↔ x = 0 ∧ y = 0 := BitVec.or_eq_zero_iff
  rw [ne_eq, hor, BitVec.toNat_eq, BitVec.toNat_eq, not_and_or]
  rfl

lemma shift_and_one_ne_zero (x : BitVec 64) (i : ℕ) : (x >>> i) &&& 1#64 ≠ 0 ↔ x.getLsbD i = true := by
  have h := bvBit_eq [x >>> i] 0
  rw [testBit_wordsNat] at h
  have hbit : ((x >>> i) &&& 1#64 != 0) = x.getLsbD i := by simpa [bvBit] using h
  rw [← hbit, bne_iff_ne]

/-- `g4_extend` of a word. -/
lemma toNat_g4ExtendWord (hsource : source ≤ 64) (hwidth : width ≤ 64)
    {x : BitVec 64} (hx : x.toNat < 2 ^ source) (sign : Bool) :
    (g4ExtendWord x source width sign).toNat = extendNat width source sign x.toNat := by
  have hzero : ∀ i, source ≤ i → x.getLsbD i = false := by
    intro i hi
    rw [← BitVec.testBit_toNat]
    exact testBit_beyond hx hi
  rcases Nat.eq_zero_or_pos source with rfl | hpos
  · have hx0 : x.toNat = 0 := by simpa using hx
    rw [g4ExtendWord, if_neg (by simp), toNat_and_g4Mask, hx0, extendNat_zero, zero_mod]
  apply eq_of_testBit_eq
  intro i
  rw [extendNat_testBit hpos hx, BitVec.testBit_toNat, g4ExtendWord, BitVec.getLsbD_and, getLsbD_g4Mask,
    BitVec.testBit_toNat, BitVec.testBit_toNat]
  simp only [shift_and_one_ne_zero]
  by_cases hi : i < width
  · have hi64 : i < 64 := by omega
    simp only [hi, hi64, and_self, decide_true, Bool.and_true, Bool.true_and]
    by_cases his : i < source
    · rw [if_pos his]
      split_ifs
      · rw [BitVec.getLsbD_or, BitVec.getLsbD_not, getLsbD_g4Mask]
        simp [his, hi64]
      · rfl
    · rw [if_neg his]
      by_cases hfill : sign = true ∧ x.getLsbD (source - 1) = true
      · rw [if_pos ⟨hfill.1, by omega, by omega, hfill.2⟩, hfill.1, hfill.2,
          BitVec.getLsbD_or, BitVec.getLsbD_not, getLsbD_g4Mask]
        simp [his, hi64]
      · rw [if_neg fun h => hfill ⟨h.1, h.2.2.2⟩, hzero i (by omega)]
        symm
        simpa using hfill
  · simp [hi]

/-- `llg_gmp_sv4_extend_plane` extends as the reference arithmetic. -/
lemma llgGmpSv4ExtendPlane_eq (hwidth : 0 < width) (hsource : 0 < source) (input : Words) (sign : Bool) :
    llgGmpSv4ExtendPlane width (some input) source sign = bvExtend width input source sign := by
  have hm : g4Words source = crWords source := (crWords_of_pos hsource).symm
  have hn : g4Words width = crWords width := (crWords_of_pos hwidth).symm
  have hlast : crWords source - 1 = (source - 1) / 64 := by
    rw [← hm, g4Words]
    omega
  have hbit : (input.getD (crWords source - 1) 0).getLsbD ((source - 1) % 64) = bvBit input (source - 1) := by
    rw [hlast, bvBit_eq, testBit_wordsNat]
  simp only [llgGmpSv4ExtendPlane, bvExtend, maskTop_eq_bvMask hwidth, hm, hn, shift_and_one_ne_zero,
    hbit, getD_some]
  congr 1
  have hne : source ≠ 0 := by omega
  by_cases hfill : sign = true ∧ bvBit input (source - 1) = true
  · obtain ⟨rfl, hbit⟩ := hfill
    simp only [hbit, hne, hsource, ne_eq, not_false_eq_true, and_self, if_true, decide_true,
      Bool.and_self, Bool.true_and, BitVec.allOnes_and, Bool.and_eq_true, decide_eq_true_eq,
      (crWords_pos source).ne', and_true]
    generalize (range (crWords width)).map _ = out
    by_cases hlt : source < width
    · by_cases htop : source % 64 = 0
      · rw [if_pos hlt, if_neg fun hand => hand.2 htop, g4Topmask_of_full htop]
        simp only [BitVec.not_allOnes, BitVec.or_zero]
        exact modify_id ..
      · rw [if_pos hlt, if_pos ⟨hlt, htop⟩, g4Topmask_of_partial htop]
    · rw [if_neg hlt, if_neg fun hand => hlt hand.1]
  · have hword : ¬(sign = true ∧ source ≠ 0 ∧ bvBit input (source - 1) = true) :=
      fun hand => hfill ⟨hand.1, hand.2.2⟩
    have hflag : (sign && decide (0 < source) && bvBit input (source - 1)) = false := by
      simpa [hsource] using hfill
    have hkeep : ∀ x y : BitVec 64, x ||| (0 &&& y) = x := by simp
    simp only [if_neg hword, hflag, Bool.false_and, Bool.false_eq_true, if_false, hkeep]
    split_ifs
    · exact modify_id ..
    · rfl

/-- `llg_gmp_sv4_extend_plane` of an array. -/
lemma holds_llgGmpSv4ExtendPlane {v : ℕ} (hwidth : 0 < width) {input : Words}
    (h : Holds source input v) (sign : Bool) :
    Holds width (llgGmpSv4ExtendPlane width (some input) source sign) (extendNat width source sign v) := by
  rcases Nat.eq_zero_or_pos source with rfl | hsource
  · -- nothing to extend
    obtain rfl : v = 0 := by simpa using h.lt
    have hzero : llgGmpSv4ExtendPlane width (some input) 0 sign =
        maskTop (replicate (g4Words width) 0) width := by
      simp [llgGmpSv4ExtendPlane, g4Words]
    have hmask := holds_maskTop hwidth
      (show (replicate (g4Words width) (0 : BitVec 64)).length = g4Words width by simp)
    rw [wordsNat_replicate_zero, zero_mod] at hmask
    rw [hzero, extendNat_zero]
    exact hmask
  · rw [llgGmpSv4ExtendPlane_eq hwidth hsource]
    exact h.bvExtend width sign

end Lapligence.Value
