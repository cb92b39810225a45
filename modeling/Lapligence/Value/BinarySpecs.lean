import Lapligence.Value.States

/-!
# What the binary operators yield

Sums, differences, products and the bitwise operators, on both paths and with a destination.  The result of
`g4_binary` does not depend on the path: `g4Binary_yields` describes it by the bits of the extended operands.
-/

namespace Lapligence.Value

open WordLists Constraints Elab List Nat

variable {w x y : ℕ} {xs ys : Words}

/-! ## Words -/

/-- The operator on bits; the codes other than the bitwise ones do not occur. -/
def bitwiseBit : BinaryOp → Bit → Bit → Bit
  | .and => andBit
  | .or => orBit
  | .xor => xorBit
  | _ => fun p q => bitNegOne (xorBit p q)

lemma bitwiseWord_bit (op : BinaryOp) (x xb y yb : BitVec 64) {k : ℕ} (hk : k < 64) :
    stateBit ((bitwiseWord op x xb y yb).1.getLsbD k) ((bitwiseWord op x xb y yb).2.getLsbD k) =
      bitwiseBit op (stateBit (x.getLsbD k) (xb.getLsbD k)) (stateBit (y.getLsbD k) (yb.getLsbD k)) := by
  cases op <;> simp only [bitwiseWord, bitwiseBit, reduceCtorEq, if_true, if_false, BitVec.getLsbD_or,
      BitVec.getLsbD_and, BitVec.getLsbD_xor, BitVec.getLsbD_not, hk, decide_true, Bool.true_and] <;>
    cases x.getLsbD k <;> cases xb.getLsbD k <;> cases y.getLsbD k <;> cases yb.getLsbD k <;> rfl

lemma knownWord_bit (op : BinaryOp) (x y : BitVec 64) {k : ℕ} (hk : k < 64) :
    Bit.ofBool ((knownWord op x y).getLsbD k) =
      bitwiseBit op (Bit.ofBool (x.getLsbD k)) (Bit.ofBool (y.getLsbD k)) := by
  cases op <;> simp only [knownWord, bitwiseBit, BitVec.getLsbD_or, BitVec.getLsbD_and, BitVec.getLsbD_xor,
      BitVec.getLsbD_not, hk, decide_true, Bool.true_and] <;>
    cases x.getLsbD k <;> cases y.getLsbD k <;> rfl

/-! ## Sums and differences -/

lemma ite_eq_flagWord (p : Prop) [Decidable p] : (if p then 1#64 else 0#64) = flagWord (decide p) := by
  by_cases hp : p <;> simp [hp, flagWord]

lemma addCarry_eq (subtract : Bool) (xs ys : Words) (c : Bool) :
    addCarry subtract xs ys (flagWord c) =
      bvAddWords xs (if subtract then ys.map (~~~ ·) else ys) c := by
  induction xs generalizing ys c with
  | nil => cases subtract <;> cases ys <;> rfl
  | cons x xs ih =>
    cases ys with
    | nil => cases subtract <;> rfl
    | cons =>
      cases subtract with
      | false =>
        simp only [addCarry, Bool.false_eq_true, if_false, ite_eq_flagWord, Bool.decide_or, ih]
        rfl
      | true =>
        simp only [addCarry, if_true, ite_eq_flagWord, Bool.decide_or, ih]
        rfl

lemma wordsNat_map_not (ys : Words) :
    wordsNat (ys.map (~~~ ·)) + wordsNat ys + 1 = 2 ^ (64 * ys.length) := by
  induction ys with
  | nil => rfl
  | cons y =>
    have hy := y.isLt
    rw [map_cons, wordsNat_cons, wordsNat_cons, length_cons, pow_words_succ, BitVec.toNat_not]
    omega

/-- The sum or the difference modulo the width. -/
lemma addCarry_spec (subtract : Bool) {n : ℕ} (hx : xs.length = n) (hy : ys.length = n)
    (hw : w ≤ 64 * n) :
    let r := addCarry subtract xs ys (if subtract then 1#64 else 0#64)
    r.length = n ∧ wordsNat r % 2 ^ w =
      (if subtract then wordsNat xs + (2 ^ w - wordsNat ys % 2 ^ w) else wordsNat xs + wordsNat ys) %
        2 ^ w := by
  have hflag : (if subtract then 1#64 else 0#64) = flagWord subtract := by cases subtract <;> rfl
  have hlen : xs.length = (if subtract then ys.map (~~~ ·) else ys).length := by
    cases subtract <;> simp [hx, hy]
  obtain ⟨k, hk⟩ := bvAddWords_eq xs (if subtract then ys.map (~~~ ·) else ys) subtract hlen
  obtain ⟨m, hm⟩ : 2 ^ w ∣ 2 ^ (64 * xs.length) := pow_dvd_pow 2 (by rwa [hx])
  intro r
  have hr : r = bvAddWords xs (if subtract then ys.map (~~~ ·) else ys) subtract := by
    rw [← addCarry_eq, ← hflag]
  rw [← hr] at hk
  refine ⟨by rw [hr, length_bvAddWords _ _ _ hlen, hx], ?_⟩
  cases subtract with
  | false =>
    simp only [Bool.false_eq_true, if_false, Bool.toNat_false, add_zero] at hk ⊢
    rw [hk, hm, mul_assoc, add_mul_mod_self_left]
  | true =>
    simp only [if_true, Bool.toNat_true] at hk ⊢
    have hnot := wordsNat_map_not ys
    rw [hy, ← hx, hm] at hnot
    rw [hm] at hk
    apply Nat.ModEq.add_right_cancel' (wordsNat ys)
    have hmod := mod_lt (wordsNat ys) (Nat.two_pow_pos w)
    have hdm := mod_add_div (wordsNat ys) (2 ^ w)
    generalize wordsNat ys / 2 ^ w = d at *
    have h1 : wordsNat xs + (2 ^ w - wordsNat ys % 2 ^ w) + wordsNat ys = wordsNat xs + 2 ^ w * (1 + d) := by
      rw [mul_add, mul_one]
      omega
    have h2 : wordsNat r + wordsNat ys + 2 ^ w * (m * k) = wordsNat xs + 2 ^ w * m := by
      rw [← mul_assoc]
      omega
    calc (wordsNat r + wordsNat ys) % 2 ^ w
        = (wordsNat r + wordsNat ys + 2 ^ w * (m * k)) % 2 ^ w := (add_mul_mod_self_left ..).symm
      _ = wordsNat xs % 2 ^ w := by rw [h2, add_mul_mod_self_left]
      _ = (wordsNat xs + (2 ^ w - wordsNat ys % 2 ^ w) + wordsNat ys) % 2 ^ w := by
        rw [h1, add_mul_mod_self_left]

/-! ## Products -/

lemma multiplyWord_eq (a b : BitVec 64) :
    (multiplyWord a b).1.toNat + 2 ^ 64 * (multiplyWord a b).2.toNat = a.toNat * b.toNat := by
  obtain ⟨p00, p01, p10, p11, h00, h01, h10, h11, hle, hsplit⟩ := mul_by_halves a b
  rw [multiplyWord, BitVec.or_comm]
  simp only [hsplit, toNat_halves_or, BitVec.toNat_add, toNat_highHalf, toNat_lowHalf, h00, h01, h10, h11]
  omega

/-- The two words of a product do not depend on how they are computed. -/
lemma multiplyWord_eq_crMul64 (x y : BitVec 64) : multiplyWord x y = crMul64 y x := by
  have h1 := multiplyWord_eq x y
  have h2 := crMul64_eq y x
  have hl1 := (multiplyWord x y).1.isLt
  have hl2 := (crMul64 y x).1.isLt
  rw [mul_comm y.toNat] at h2
  refine Prod.ext (BitVec.eq_of_toNat_eq ?_) (BitVec.eq_of_toNat_eq ?_) <;> omega

lemma kernelMulRow_eq (y : BitVec 64) (out a : Words) (c : BitVec 64) :
    kernelMulRow y out a c = bvMulRow y out a c := by
  induction out generalizing a c with
  | nil => rfl
  | cons e out ih =>
    cases a with
    | nil => rfl
    | cons =>
      simp only [kernelMulRow, bvMulRow, multiplyWord_eq_crMul64, ite_eq_flagWord, ih]

/-- A row for the word zero changes nothing. -/
lemma bvMulRow_zero (out a : Words) : bvMulRow 0#64 out a 0#64 = out := by
  induction out generalizing a with
  | nil => rfl
  | cons e out ih =>
    cases a with
    | nil => rfl
    | cons x =>
      have hzero : crMul64 0#64 x = (0#64, 0#64) := by simp [crMul64]
      simp [bvMulRow, hzero, flagWord, ih]

lemma kernelMulRows_eq (a b out : Words) : kernelMulRows a b out = bvMulRows a b out := by
  induction b generalizing out with
  | nil => rfl
  | cons y b ih =>
    have hrow : (if y = 0 then out else bvMulRow y out a 0) = kernelMulRow y out a 0 := by
      rw [kernelMulRow_eq]
      split_ifs with hy
      · rw [hy]
        exact (bvMulRow_zero out a).symm
      · rfl
    simp only [kernelMulRows, bvMulRows, hrow]
    cases kernelMulRow y out a 0 with
    | nil => rfl
    | cons e out => exact congrArg _ (ih out)

lemma holds_llgGmpSv4KernelMul (hw : 0 < w) {a b : Words} (ha : Holds w a x) (hb : Holds w b y) :
    Holds w (maskTop (llgGmpSv4KernelMul a b (g4Words w)) w) (x * y % 2 ^ w) := by
  have hmul := hb.bvMul ha
  rw [bvMul, crWords_of_pos hw] at hmul
  rw [maskTop_eq_bvMask hw, llgGmpSv4KernelMul, kernelMulRows_eq, mul_comm x y]
  exact hmul

/-! ## The operators -/

/-- The number of an arithmetic result. -/
def arithNat (op : BinaryOp) (w x y : ℕ) : ℕ :=
  match op with
  | .add => x + y
  | .sub => x + (2 ^ w - y)
  | _ => x * y

/-- The bits of a result, from the bits of the extended operands. -/
def binaryBits (op : BinaryOp) (w : ℕ) (f g : ℕ → Bit) (i : ℕ) : Bit :=
  if op.isArithmetic then Bit.ofBool ((arithNat op w (num w f) (num w g)).testBit i)
  else bitwiseBit op (f i) (g i)

lemma binaryBits_arithmetic {op : BinaryOp} (hop : op.isArithmetic = true) (w : ℕ) (f g : ℕ → Bit) (i : ℕ) :
    binaryBits op w f g i = Bit.ofBool ((arithNat op w (num w f) (num w g)).testBit i) :=
  if_pos hop

lemma binaryBits_bitwise {op : BinaryOp} (hop : ¬op.isArithmetic = true) (w : ℕ) (f g : ℕ → Bit) (i : ℕ) :
    binaryBits op w f g i = bitwiseBit op (f i) (g i) :=
  if_neg hop

/-- The bits of a result; unknown operands make an arithmetic result X. -/
def binaryResult (op : BinaryOp) (a b : G4) : ℕ → Bit := fun i =>
  if op.isArithmetic = true ∧ (a.bNat ≠ 0 ∨ b.bNat ≠ 0) then .x
  else binaryBits op (g4Maxw a b) (a.extBits (a.isSigned && b.isSigned))
    (b.extBits (a.isSigned && b.isSigned)) i

section Operators

variable {a b : G4} {op : BinaryOp}

/-- An operand as an array of span words. -/
lemma span_mod {v : G4} (h : v.Canonical) (w : ℕ) (s : Bool) :
    wordsNat ((List.range (g4Words w)).map (v.spanA s).word) % 2 ^ w = v.extA w s := by
  apply eq_of_testBit_eq
  intro i
  rw [testBit_mod_two_pow, testBit_wordsNat_map_range]
  by_cases hi : i < w
  · have hword : i / 64 < g4Words w := by
      rw [g4Words]
      omega
    rw [decide_eq_true hword, getLsbD_spanA s h hi, decide_eq_true hi, Bool.true_and, Bool.true_and]
  · rw [decide_eq_false hi, Bool.false_and]
    exact (testBit_beyond (extendNat_lt w _ _ _) (Nat.not_lt.1 hi)).symm

/-- A word operation modulo the width. -/
lemma toNat_arith_mod (op : BinaryOp) (hw : w ≤ 64) (x y : BitVec 64) (hy : y.toNat < 2 ^ w) :
    (arithWord op x y).toNat % 2 ^ w = arithNat op w x.toNat y.toNat % 2 ^ w := by
  have hdvd : 2 ^ w ∣ 2 ^ 64 := Nat.pow_dvd_pow 2 hw
  cases op with
  | add => rw [arithWord, BitVec.toNat_add, mod_mod_of_dvd _ hdvd, arithNat]
  | sub =>
    obtain ⟨k, hk⟩ := Nat.exists_eq_add_of_le (le_of_dvd (by decide) hdvd)
    obtain ⟨m, rfl⟩ : 2 ^ w ∣ k := (Nat.dvd_add_right (dvd_refl _)).1 (hk ▸ hdvd)
    rw [arithWord, BitVec.toNat_sub, mod_mod_of_dvd _ hdvd, hk, arithNat,
      show 2 ^ w + 2 ^ w * m - y.toNat + x.toNat = x.toNat + (2 ^ w - y.toNat) + 2 ^ w * m by omega,
      add_mul_mod_self_left]
  | _ =>
    rw [show arithWord _ x y = x * y from rfl, BitVec.toNat_mul, mod_mod_of_dvd _ hdvd]
    rfl

/-- The narrow path. -/
lemma g4Binary_narrow (ha : a.Canonical) (hb : b.Canonical) (hw : ¬g4Maxw a b > 64) :
    Yields (g4Binary a b op) (g4Maxw a b) (a.isSigned && b.isSigned) (binaryResult op a b) := by
  have hwidths := g4Maxw_eq a b
  have haw : a.width ≤ 64 := by omega
  have hbw : b.width ≤ 64 := by omega
  have hw64 : g4Maxw a b ≤ 64 := by omega
  unfold binaryResult
  simp only [g4Binary, if_neg hw]
  generalize a.isSigned = sa, b.isSigned = sb
  generalize (sa && sb) = s
  have hxa := toNat_g4ExtendWord_smallA s ha haw hw64
  have hxb := toNat_g4ExtendWord_smallB s ha haw hw64
  have hya := toNat_g4ExtendWord_smallA s hb hbw hw64
  have hyb := toNat_g4ExtendWord_smallB s hb hbw hw64
  generalize g4ExtendWord a.smallA a.width (g4Maxw a b) s = xa at *
  generalize g4ExtendWord a.smallB a.width (g4Maxw a b) s = xb at *
  generalize g4ExtendWord b.smallA b.width (g4Maxw a b) s = ya at *
  generalize g4ExtendWord b.smallB b.width (g4Maxw a b) s = yb at *
  by_cases hop : op.isArithmetic = true
  · have hunknown : xb ||| yb ≠ 0 ↔ a.bNat ≠ 0 ∨ b.bNat ≠ 0 := by
      rw [or_ne_zero_iff, hxb, hyb, ne_eq, ne_eq, extB_eq_zero_iff s ha (by omega),
        extB_eq_zero_iff s hb (by omega)]
    rw [if_pos hop]
    by_cases hab : a.bNat ≠ 0 ∨ b.bNat ≠ 0
    · rw [if_pos (hunknown.2 hab)]
      exact (yields_llgGmpSv4X _ s).congr fun i _ => (if_pos ⟨hop, hab⟩).symm
    · rw [if_neg (mt hunknown.1 hab)]
      rw [not_or, not_not, not_not] at hab
      refine yields_g4Small hw64 fun i hi => ?_
      rw [if_neg (by simp [hab]), binaryBits_arithmetic hop, num_extBits s ha hab.1,
        num_extBits s hb hab.2, ← hxa, ← hya, ← BitVec.testBit_toNat]
      have hyt : ya.toNat < 2 ^ g4Maxw a b := by
        rw [hya]
        exact extendNat_lt _ _ _ _
      rw [testBit_of_mod_eq (toNat_arith_mod op hw64 xa ya hyt) hi, ← stateBit_false]
      congr 1
      exact BitVec.getLsbD_zero
  · rw [if_neg hop]
    refine yields_g4Small hw64 fun i hi => ?_
    rw [bitwiseWord_bit op xa xb ya yb (by omega), if_neg (fun h => hop h.1), binaryBits_bitwise hop,
      ← stateBit_ext s ha hi, ← stateBit_ext s hb hi, ← hxa, ← hxb, ← hya, ← hyb, BitVec.testBit_toNat,
      BitVec.testBit_toNat, BitVec.testBit_toNat, BitVec.testBit_toNat]

/-! ### The wide path -/

/-- The loop for sums and differences of two operands. -/
lemma addCarry_arith (hop : op.isArithmetic = true) (hmul : op ≠ .mul)
    (hxs : xs.length = g4Words w) (hys : ys.length = g4Words w) (hx : wordsNat xs = x)
    (hy : wordsNat ys % 2 ^ w = y) :
    let r := addCarry (op = .sub) xs ys (if op = .sub then 1#64 else 0#64)
    r.length = g4Words w ∧ wordsNat r % 2 ^ w = arithNat op w x y % 2 ^ w := by
  have hspec := addCarry_spec (decide (op = .sub)) hxs hys (w := w) (by rw [g4Words]; omega)
  simp only [decide_eq_true_eq] at hspec
  obtain ⟨hlen, hmod⟩ := hspec
  refine ⟨hlen, hmod.trans ?_⟩
  cases op with
  | add =>
    rw [if_neg (by simp), hx, ← hy, arithNat, add_mod_mod]
  | sub => rw [if_pos rfl, hx, hy, arithNat]
  | mul => exact absurd rfl hmul
  | _ => simp [BinaryOp.isArithmetic] at hop

lemma div_lt_g4Words {i : ℕ} (hi : i < w) : i / 64 < g4Words w := by
  rw [g4Words]
  omega

/-- A bit of an array that holds a number. -/
lemma getLsbD_of_holds {ws : Words} (h : Holds w ws x) (i : ℕ) :
    (ws.getD (i / 64) 0).getLsbD (i % 64) = x.testBit i := by
  rw [← testBit_wordsNat, h.value]

/-- The operand of an array that is not extended. -/
lemma extA_self {v : G4} (h : v.Canonical) (s : Bool) : v.extA v.width s = v.aNat :=
  extendNat_self s h.aNat_lt

/-- Two known arrays of the same width. -/
lemma llgGmpSv4BinaryKnownEqual_yields (hmul : op ≠ .mul) (hw : 64 < w) {s : Bool}
    (hx : Holds w xs x) (hy : Holds w ys y) :
    Yields (llgGmpSv4BinaryKnownEqual xs ys w s op) w s fun i =>
      if op.isArithmetic = true then Bit.ofBool ((arithNat op w x y).testBit i)
      else bitwiseBit op (Bit.ofBool (x.testBit i)) (Bit.ofBool (y.testBit i)) := by
  have hpos : 0 < w := by omega
  have hxs : xs.length = g4Words w := hx.length.trans (crWords_of_pos hpos)
  have hys : ys.length = g4Words w := hy.length.trans (crWords_of_pos hpos)
  rw [llgGmpSv4BinaryKnownEqual]
  by_cases hop : op.isArithmetic = true
  · obtain ⟨hlen, hmod⟩ := addCarry_arith hop hmul hxs hys hx.value
      ((congrArg (· % 2 ^ w) hy.value).trans (mod_eq_of_lt hy.lt))
    rw [if_pos hop]
    refine yields_maskTop hw hlen fun i hi => ?_
    rw [if_pos hop, testBit_of_mod_eq hmod hi]
  · rw [if_neg hop]
    refine yields_maskTop hw (by simp [hxs, hys]) fun i hi => ?_
    rw [if_neg hop, testBit_wordsNat_zipWith _ (hxs.trans hys.symm) (hxs ▸ div_lt_g4Words hi),
      knownWord_bit _ _ _ (mod_lt _ (by decide)), getLsbD_of_holds hx, getLsbD_of_holds hy]

lemma multiply_yields (ha : a.Canonical) (hb : b.Canonical) (hw : 64 < g4Maxw a b) :
    Yields (multiply a b) (g4Maxw a b) (a.isSigned && b.isSigned) fun i => Bit.ofBool
      ((a.extA (g4Maxw a b) (a.isSigned && b.isSigned) *
        b.extA (g4Maxw a b) (a.isSigned && b.isSigned)).testBit i) := by
  have hpos : 0 < g4Maxw a b := by omega
  simp only [multiply]
  generalize (a.isSigned && b.isSigned) = s
  have hoperands : ∀ v : G4, v.Canonical → (v.width = g4Maxw a b ∨ a.width ≠ g4Maxw a b ∨ b.width ≠ g4Maxw a b) →
      Holds (g4Maxw a b) (if a.width ≠ g4Maxw a b ∨ b.width ≠ g4Maxw a b then
        llgGmpSv4ExtendPlane (g4Maxw a b) (some v.a) v.width s else v.a) (v.extA (g4Maxw a b) s) := by
    intro v hv hwidth
    by_cases hmixed : a.width ≠ g4Maxw a b ∨ b.width ≠ g4Maxw a b
    · rw [if_pos hmixed]
      exact holds_extA s hv hpos
    · rw [if_neg hmixed, ← hwidth.resolve_right hmixed, extA_self hv]
      exact hv.holds_a
  have hx := hoperands a ha (by tauto)
  have hy := hoperands b hb (by tauto)
  refine (yields_of_holds hw (holds_llgGmpSv4KernelMul hpos hx hy)).congr fun i hi => ?_
  rw [testBit_of_mod_eq (mod_mod _ _) hi]

lemma anyUnknown_iff (ha : a.Canonical) (hb : b.Canonical) :
    (decide (llgGmpSv4IsUnknown a = true ∨ llgGmpSv4IsUnknown b = true) = true) ↔ a.bNat ≠ 0 ∨ b.bNat ≠ 0 := by
  rw [decide_eq_true_iff, ha.isUnknown_iff, hb.isUnknown_iff]

/-- The wide path for operands of any widths. -/
lemma llgGmpSv4BinaryWide_yields (ha : a.Canonical) (hb : b.Canonical) (hw : 64 < g4Maxw a b)
    (hknown : op.isArithmetic = true → a.bNat = 0 ∧ b.bNat = 0) :
    Yields (llgGmpSv4BinaryWide a b op) (g4Maxw a b) (a.isSigned && b.isSigned)
      (binaryBits op (g4Maxw a b) (a.extBits (a.isSigned && b.isSigned))
        (b.extBits (a.isSigned && b.isSigned))) := by
  have hpos : 0 < g4Maxw a b := by omega
  have hunknown := anyUnknown_iff ha hb
  have hmul := multiply_yields ha hb hw
  simp only [llgGmpSv4BinaryWide]
  generalize (a.isSigned && b.isSigned) = s at *
  generalize g4Maxw a b = w at *
  have hx := holds_extA s ha hpos
  have hxb := holds_extB s ha hpos
  have hxlen : (llgGmpSv4ExtendPlane w (some a.a) a.width s).length = g4Words w :=
    hx.length.trans (crWords_of_pos hpos)
  have hylen : ((List.range (g4Words w)).map (b.spanA s).word).length = g4Words w := by simp
  by_cases hop : op.isArithmetic = true
  · obtain ⟨hab, hbb⟩ := hknown hop
    rw [if_neg (fun h => (hunknown.1 h.2).elim (· hab) (· hbb))]
    by_cases hop2 : op = .mul
    · rw [if_pos hop2]
      refine hmul.congr fun i hi => ?_
      rw [binaryBits_arithmetic hop, num_extBits s ha hab, num_extBits s hb hbb, hop2]
      rfl
    · rw [if_neg hop2, if_pos hop]
      obtain ⟨hlen, hmod⟩ := addCarry_arith hop hop2 hxlen hylen hx.value (span_mod hb w s)
      refine yields_llgGmpSv4Finish hw hlen (by simp) fun i hi => ?_
      rw [binaryBits_arithmetic hop, num_extBits s ha hab, num_extBits s hb hbb,
        testBit_of_mod_eq hmod hi, ← stateBit_false]
      simp
  rw [if_neg (fun h => hop h.1), if_neg (by rintro rfl; exact hop rfl), if_neg hop]
  by_cases hab : a.bNat ≠ 0 ∨ b.bNat ≠ 0
  · rw [if_neg (not_not.2 (hunknown.2 hab))]
    refine yields_llgGmpSv4Finish hw (by simp) (by simp) fun i hi => ?_
    have hword := div_lt_g4Words hi
    rw [Option.getD_some, map_map, map_map, testBit_wordsNat_map_range,
      testBit_wordsNat_map_range, decide_eq_true hword, Bool.true_and, Bool.true_and, Function.comp,
      Function.comp, bitwiseWord_bit op _ _ _ _ (mod_lt _ (by decide)), getD_map_range _ hword,
      getD_map_range _ hword, getLsbD_of_holds hx, getLsbD_of_holds hxb, getLsbD_spanA s hb hi,
      getLsbD_spanB s hb hi, binaryBits_bitwise hop, stateBit_ext s ha hi, stateBit_ext s hb hi]
  · rw [if_pos (mt hunknown.1 hab)]
    rw [not_or, not_not, not_not] at hab
    refine yields_llgGmpSv4Finish hw (by rw [length_zipWith, hxlen, hylen, Nat.min_self]) (by simp)
      fun i hi => ?_
    have hword := div_lt_g4Words hi
    rw [testBit_wordsNat_zipWith _ (hxlen.trans hylen.symm) (hxlen ▸ hword), binaryBits_bitwise hop,
      extBits_known s ha hab.1 hi, extBits_known s hb hab.2 hi, ← getLsbD_spanA s hb hi,
      ← getLsbD_of_holds hx, getD_map_range _ hword, ← knownWord_bit op _ _ (mod_lt _ (by decide)),
      ← stateBit_false]
    simp

/-- What `g4_binary` returns. -/
lemma g4Binary_yields (ha : a.Canonical) (hb : b.Canonical) (op : BinaryOp) :
    Yields (g4Binary a b op) (g4Maxw a b) (a.isSigned && b.isSigned) (binaryResult op a b) := by
  by_cases hw : g4Maxw a b > 64
  swap
  · exact g4Binary_narrow ha hb hw
  have hunknown : op.isArithmetic = true ∧ (llgGmpSv4IsUnknown a = true ∨ llgGmpSv4IsUnknown b = true) ↔
      op.isArithmetic = true ∧ (a.bNat ≠ 0 ∨ b.bNat ≠ 0) := by
    rw [ha.isUnknown_iff, hb.isUnknown_iff]
  simp only [g4Binary, if_pos hw]
  by_cases hx : op.isArithmetic = true ∧ (a.bNat ≠ 0 ∨ b.bNat ≠ 0)
  · rw [if_pos (hunknown.2 hx)]
    exact (yields_llgGmpSv4X _ _).congr fun i _ => (if_pos hx).symm
  rw [if_neg (mt hunknown.1 hx)]
  unfold binaryResult
  simp only [if_neg hx]
  by_cases hequal : op ≠ .mul ∧ a.width = b.width ∧ a.b = none ∧ b.b = none
  · obtain ⟨hmul, hwidth, hab, hbb⟩ := hequal
    have haw : g4Maxw a b = a.width := by
      rw [g4Maxw_eq, hwidth, max_self]
    have hbw : g4Maxw a b = b.width := haw.trans hwidth
    have haNat : a.bNat = 0 := G4.bNat_of_none hab
    have hbNat : b.bNat = 0 := G4.bNat_of_none hbb
    rw [if_pos ⟨hmul, hwidth, hab, hbb⟩]
    refine (llgGmpSv4BinaryKnownEqual_yields hmul hw (haw ▸ ha.holds_a) (hbw ▸ hb.holds_a)).congr
      fun i hi => ?_
    rw [binaryBits, num_extBits _ ha haNat, num_extBits _ hb hbNat, extBits_known _ ha haNat hi,
      extBits_known _ hb hbNat hi]
    have hexa : a.extA (g4Maxw a b) (a.isSigned && b.isSigned) = a.aNat := haw ▸ extA_self ha _
    have hexb : b.extA (g4Maxw a b) (a.isSigned && b.isSigned) = b.aNat := hbw ▸ extA_self hb _
    rw [hexa, hexb]
  · rw [if_neg hequal]
    exact llgGmpSv4BinaryWide_yields ha hb hw fun hop => by simpa [hop] using hx

end Operators

/-! ## Destinations -/

section Destinations

variable {dst a b : G4} {shared : Aliases} {op : BinaryOp}

/-- An operand shares the words of the destination only if it is the same value. -/
structure Aliases.Valid (shared : Aliases) (dst a b : G4) : Prop where
  left : shared.left = true → dst.a = a.a
  right : shared.right = true → dst.a = b.a

variable {ds : Words}

/-- The first word of an operand, read from the destination or not. -/
lemma shared_cons {flag : Bool} {d x : BitVec 64} (h : flag = true → d :: ds = x :: xs) :
    (if flag = true then d else x) = x ∧ (flag = true → ds = xs) := by
  refine ⟨?_, fun hflag => (cons_eq_cons.1 (h hflag)).2⟩
  split_ifs with hflag
  · exact (cons_eq_cons.1 (h hflag)).1
  · rfl

/-- The loop reads every word of the destination before it writes it. -/
lemma addInto_eq (subtract : Bool) (c : BitVec 64) (hx : xs.length = ds.length)
    (hy : ys.length = ds.length) (hleft : shared.left = true → ds = xs)
    (hright : shared.right = true → ds = ys) :
    addInto subtract shared ds xs ys c = addCarry subtract xs ys c := by
  induction ds generalizing xs ys c with
  | nil =>
    obtain rfl := eq_nil_of_length_eq_zero hx
    obtain rfl := eq_nil_of_length_eq_zero hy
    rfl
  | cons d ds ih =>
    obtain ⟨x, xs, rfl⟩ := exists_cons_of_length_eq_add_one hx
    obtain ⟨y, ys, rfl⟩ := exists_cons_of_length_eq_add_one hy
    obtain ⟨hxd, hleft⟩ := shared_cons hleft
    obtain ⟨hyd, hright⟩ := shared_cons hright
    simp only [addInto, addCarry, hxd, hyd]
    rw [ih _ (by simpa using hx) (by simpa using hy) hleft hright]

lemma bitwiseInto_eq (op : BinaryOp) (hx : xs.length = ds.length)
    (hy : ys.length = ds.length) (hleft : shared.left = true → ds = xs)
    (hright : shared.right = true → ds = ys) :
    bitwiseInto op shared ds xs ys = List.zipWith (knownWord op) xs ys := by
  induction ds generalizing xs ys with
  | nil =>
    obtain rfl := eq_nil_of_length_eq_zero hx
    obtain rfl := eq_nil_of_length_eq_zero hy
    rfl
  | cons d ds ih =>
    obtain ⟨x, xs, rfl⟩ := exists_cons_of_length_eq_add_one hx
    obtain ⟨y, ys, rfl⟩ := exists_cons_of_length_eq_add_one hy
    obtain ⟨hxd, hleft⟩ := shared_cons hleft
    obtain ⟨hyd, hright⟩ := shared_cons hright
    simp only [bitwiseInto, hxd, hyd, zipWith_cons_cons]
    rw [ih (by simpa using hx) (by simpa using hy) hleft hright]

/-- A known result in a destination whose plane `b` is cleared. -/
lemma yields_cleared (hw : 64 < w) {s : Bool} {f : ℕ → Bit} {words : Words}
    (hlen : words.length = g4Words w) (b : Option Words)
    (h : ∀ i < w, Bit.ofBool ((wordsNat words).testBit i) = f i) :
    Yields (llgGmpSv4Finish ⟨w, s, words, b.map fun _ => List.replicate (g4Words w) 0⟩) w s f := by
  refine yields_llgGmpSv4Finish hw hlen (by cases b <;> simp) fun i hi => ?_
  have hzero : wordsNat ((b.map fun _ => List.replicate (g4Words w) 0).getD []) = 0 := by
    cases b with
    | none => rfl
    | some => exact wordsNat_replicate_zero _
  rw [hzero, zero_testBit, stateBit_false, h i hi]

/-- The product, before the last word is masked. -/
lemma llgGmpSv4KernelMul_mod (hw : 0 < w) (hx : Holds w xs x) (hy : Holds w ys y) :
    (llgGmpSv4KernelMul xs ys (g4Words w)).length = g4Words w ∧
      wordsNat (llgGmpSv4KernelMul xs ys (g4Words w)) % 2 ^ w = x * y % 2 ^ w := by
  have hlen : (llgGmpSv4KernelMul xs ys (g4Words w)).length = g4Words w := by
    rw [llgGmpSv4KernelMul, kernelMulRows_eq, length_bvMulRows, length_replicate]
  exact ⟨hlen, (holds_maskTop hw hlen).value.symm.trans (holds_llgGmpSv4KernelMul hw hx hy).value⟩

/-- An operand with the width of the result. -/
lemma extA_of_width {v : G4} (h : v.Canonical) (hw : v.width = w) (s : Bool) :
    v.extA w s = v.aNat := hw ▸ extA_self h s

/-- The loop into a destination of the width of the operands, or the kernel. -/
lemma arithmeticInto_words (hop : op.isArithmetic = true) (hw : 0 < w)
    (hd : ds.length = g4Words w) (hx : Holds w xs x) (hy : Holds w ys y)
    (hleft : shared.left = true → ds = xs) (hright : shared.right = true → ds = ys) :
    let words := if op = .mul then llgGmpSv4KernelMul xs ys (g4Words w)
      else addInto (op = .sub) shared ds xs ys (if op = .sub then 1#64 else 0#64)
    words.length = g4Words w ∧ wordsNat words % 2 ^ w = arithNat op w x y % 2 ^ w := by
  have hxs : xs.length = g4Words w := hx.length.trans (crWords_of_pos hw)
  have hys : ys.length = g4Words w := hy.length.trans (crWords_of_pos hw)
  by_cases hmul : op = .mul
  · subst hmul
    exact llgGmpSv4KernelMul_mod hw hx hy
  · rw [if_neg hmul, addInto_eq _ _ (hxs.trans hd.symm) (hys.trans hd.symm) hleft hright]
    exact addCarry_arith hop hmul hxs hys hx.value
      ((congrArg (· % 2 ^ w) hy.value).trans (mod_eq_of_lt hy.lt))

variable (hd : dst.Canonical) (ha : a.Canonical) (hb : b.Canonical) (hshared : shared.Valid dst a b)
include hd ha hb hshared

lemma llgGmpSv4ArithmeticIntoWide_yields (hop : op.isArithmetic = true) (hw : 64 < g4Maxw a b) :
    Yields (llgGmpSv4ArithmeticIntoWide dst a b shared op) (g4Maxw a b) (a.isSigned && b.isSigned) (binaryResult op a b) := by
  have hbinary := g4Binary_yields ha hb
  have hpos : 0 < g4Maxw a b := by omega
  have hunknown := anyUnknown_iff ha hb
  simp only [llgGmpSv4ArithmeticIntoWide]
  by_cases hwidths : dst.width ≠ g4Maxw a b ∨ a.width ≠ g4Maxw a b ∨ b.width ≠ g4Maxw a b
  · rw [if_pos hwidths]
    exact hbinary op
  rw [if_neg hwidths]
  simp only [not_or, not_not] at hwidths
  obtain ⟨hdw, haw, hbw⟩ := hwidths
  have hxa := ha.holds_a
  have hyb := hb.holds_a
  have hdlen : dst.a.length = g4Words (g4Maxw a b) := by
    rw [hd.holds_a.length, hdw]
    exact crWords_of_pos hpos
  rw [haw] at hxa
  rw [hbw] at hyb
  by_cases hab : a.bNat ≠ 0 ∨ b.bNat ≠ 0
  · -- all bits become X
    rw [if_pos (hunknown.2 hab), hdw]
    refine yields_llgGmpSv4Finish hw (by simp) (by simp) fun i hi => ?_
    have hbit : (2 ^ (64 * g4Words (g4Maxw a b)) - 1).testBit i = true := by
      rw [testBit_two_pow_sub_one, decide_eq_true_iff, g4Words]
      omega
    rw [binaryResult, if_pos ⟨hop, hab⟩, Option.getD_some, wordsNat_replicate_allOnes, hbit]
    rfl
  rw [if_neg (mt hunknown.1 hab)]
  by_cases hmul : op = .mul ∧ (shared.left = true ∨ shared.right = true)
  · rw [if_pos hmul]
    obtain rfl := hmul.1
    exact hbinary .mul
  rw [if_neg hmul, hdw]
  obtain ⟨hlen, hmod⟩ := arithmeticInto_words hop hpos hdlen hxa hyb hshared.left hshared.right
  refine yields_cleared hw hlen dst.b fun i hi => ?_
  have hneither : ¬(op.isArithmetic = true ∧ (a.bNat ≠ 0 ∨ b.bNat ≠ 0)) := fun h => hab h.2
  rw [binaryResult, if_neg hneither]
  rw [not_or, not_not, not_not] at hab
  rw [binaryBits_arithmetic hop, num_extBits _ ha hab.1, num_extBits _ hb hab.2, extA_of_width ha haw, extA_of_width hb hbw, testBit_of_mod_eq hmod hi]

lemma llgGmpSv4BitwiseIntoWide_yields (hop : ¬op.isArithmetic = true) (hw : 64 < g4Maxw a b) :
    Yields (llgGmpSv4BitwiseIntoWide dst a b shared op) (g4Maxw a b) (a.isSigned && b.isSigned) (binaryResult op a b) := by
  simp only [llgGmpSv4BitwiseIntoWide]
  by_cases hwidths : dst.width ≠ g4Maxw a b ∨ a.width ≠ g4Maxw a b ∨ b.width ≠ g4Maxw a b ∨
      a.b.isSome = true ∨ b.b.isSome = true
  · rw [if_pos hwidths]
    exact g4Binary_yields ha hb op
  rw [if_neg hwidths]
  simp only [not_or, not_not, Bool.not_eq_true, Option.isSome_eq_false_iff, Option.isNone_iff_eq_none]
    at hwidths
  obtain ⟨hdw, haw, hbw, hab, hbb⟩ := hwidths
  have hpos : 0 < g4Maxw a b := by omega
  have hxa := ha.holds_a
  have hyb := hb.holds_a
  have hdlen : dst.a.length = g4Words (g4Maxw a b) := by
    rw [hd.holds_a.length, hdw]
    exact crWords_of_pos hpos
  rw [haw] at hxa
  rw [hbw] at hyb
  have hxlen : a.a.length = g4Words (g4Maxw a b) := hxa.length.trans (crWords_of_pos hpos)
  have hylen : b.a.length = g4Words (g4Maxw a b) := hyb.length.trans (crWords_of_pos hpos)
  have haNat : a.bNat = 0 := G4.bNat_of_none hab
  have hbNat : b.bNat = 0 := G4.bNat_of_none hbb
  rw [bitwiseInto_eq op (hxlen.trans hdlen.symm) (hylen.trans hdlen.symm) hshared.left hshared.right, hdw]
  refine yields_cleared hw (by rw [length_zipWith, hxlen, hylen, Nat.min_self]) dst.b fun i hi => ?_
  rw [binaryResult, if_neg fun h => hop h.1, binaryBits_bitwise hop, extBits_known _ ha haNat hi,
    extBits_known _ hb hbNat hi, extA_of_width ha haw, extA_of_width hb hbw,
    testBit_wordsNat_zipWith _ (hxlen.trans hylen.symm) (hxlen ▸ div_lt_g4Words hi),
    knownWord_bit _ _ _ (mod_lt _ (by decide)), getLsbD_of_holds hxa, getLsbD_of_holds hyb]

/-- A destination gets what `g4_binary` returns. -/
lemma g4BinaryInto_yields (op : BinaryOp) :
    Yields (g4BinaryInto dst a b shared op) (g4Maxw a b) (a.isSigned && b.isSigned) (binaryResult op a b) := by
  rw [g4BinaryInto]
  by_cases hnarrow : g4Maxw a b ≤ 64
  · rw [if_pos hnarrow]
    exact g4Binary_yields ha hb op
  rw [if_neg hnarrow]
  by_cases hop : op.isArithmetic = true
  · rw [if_pos hop]
    exact llgGmpSv4ArithmeticIntoWide_yields hd ha hb hshared hop (Nat.lt_of_not_le hnarrow)
  · rw [if_neg hop]
    exact llgGmpSv4BitwiseIntoWide_yields hd ha hb hshared hop (Nat.lt_of_not_le hnarrow)

end Destinations

end Lapligence.Value
