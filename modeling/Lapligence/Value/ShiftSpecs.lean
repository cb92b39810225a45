import Lapligence.Value.CompareSpecs

/-!
# What conversions, unary operators, selections and shifts yield

`shift_plane` moves whole words and bits within words; `getLsbD_shiftSource` describes the word it reads, with
the sign beyond the value, and the two directions follow bit by bit.
-/

namespace Lapligence.Value

open WordLists Constraints Elab List Nat
open BitVec (getLsbD_and getLsbD_not getLsbD_or getLsbD_xor getLsbD_zero testBit_toNat)

/-! ## Conversion -/

section Convert

variable {v : G4} {w : ℕ}

lemma writeWords_eq {out words : Words} (h : out.length = words.length) : writeWords out words = words := by
  rw [writeWords, ← h, drop_length, append_nil]

/-- `llg_gmp_sv4_finish` on a value in one word. -/
lemma llgGmpSv4Finish_singleton (hpos : 0 < w) (hw : w ≤ 64) (s : Bool) (x y : BitVec 64) :
    llgGmpSv4Finish ⟨w, s, [x], some [y]⟩ = g4Small x y w s := by
  have hn : g4Words w = 1 := by
    rw [g4Words]
    omega
  have htop : g4Topmask w = g4Mask w := by
    rw [g4Topmask]
    split_ifs with hmod
    · rw [mod_eq_of_lt (by omega)]
    · congr 1
      omega
  simp only [llgGmpSv4Finish, hn, maskTop, htop, if_pos hw]
  rfl

/-- Conversion extends or truncates. -/
lemma convert_yields (h : v.Canonical) (w : ℕ) (s extend : Bool) :
    Yields (v.convert w s extend) w s (v.extBits extend) := by
  rw [G4.convert]
  by_cases hsmall : v.width ≤ 64 ∧ w ≤ 64
  · rw [if_pos hsmall]
    refine yields_g4Small hsmall.2 fun i hi => ?_
    rw [getLsbD_extendA h hsmall.1 hsmall.2, getLsbD_extendB h hsmall.1 hsmall.2, stateBit_ext extend h hi]
  rw [if_neg hsmall, llgGmpSv4ConvertWide]
  rcases Nat.eq_zero_or_pos w with rfl | hpos
  · -- nothing is written
    have hplane : ∀ input, llgGmpSv4ExtendPlane 0 input v.width extend = [] := by
      intro input
      simp [llgGmpSv4ExtendPlane, maskTop, g4Words]
    have hout : llgGmpSv4Finish
        { llgGmpSv4New 0 s (llgGmpSv4IsUnknown v) with
          a := writeWords (llgGmpSv4New 0 s (llgGmpSv4IsUnknown v)).a []
          b := (llgGmpSv4New 0 s (llgGmpSv4IsUnknown v)).b.map fun b => writeWords b [] } =
        g4Small 0 0 0 s := by
      simp [llgGmpSv4New, llgGmpSv4Finish, writeWords, g4Words, g4Small]
    simp only [hplane, hout]
    exact yields_g4Small (by decide) fun i hi => absurd hi (not_lt_zero i)
  have hA := holds_extA extend h hpos
  have hB := holds_extB extend h hpos
  by_cases hw : w ≤ 64
  · obtain ⟨x, hx, hxval⟩ := eq_singleton_of_holds hw hA
    obtain ⟨y, hy, hyval⟩ := eq_singleton_of_holds hw hB
    have hout : llgGmpSv4New w s (llgGmpSv4IsUnknown v) = ⟨w, s, [0], some [0]⟩ := by
      rw [llgGmpSv4New, if_neg (by omega)]
    rw [hout]
    simp only [hx, hy, Option.map_some]
    rw [show writeWords [0] [x] = [x] from rfl, show writeWords [0] [y] = [y] from rfl,
      llgGmpSv4Finish_singleton hpos hw]
    refine yields_g4Small hw fun i hi => ?_
    rw [← testBit_toNat, ← testBit_toNat, hxval, hyval, stateBit_ext extend h hi]
  · have hout : llgGmpSv4New w s (llgGmpSv4IsUnknown v) = ⟨w, s, List.replicate (g4Words w) 0,
        if llgGmpSv4IsUnknown v then some (List.replicate (g4Words w) 0) else none⟩ := by
      rw [llgGmpSv4New, if_pos (by omega)]
    have hlen : ∀ {words : Words} {x : ℕ}, Holds w words x → words.length = g4Words w :=
      fun hwords => hwords.length.trans (crWords_of_pos hpos)
    have hwrite : ∀ {words : Words} {x : ℕ}, Holds w words x →
        writeWords (List.replicate (g4Words w) 0) words = words :=
      fun hwords => writeWords_eq (length_replicate.trans (hlen hwords).symm)
    rw [hout]
    simp only [hwrite hA]
    refine yields_llgGmpSv4Finish (by omega) (hlen hA) ?_ fun i hi => ?_
    · intro words hwords
      split_ifs at hwords with hunknown
      · rw [Option.map_some, hwrite hB] at hwords
        rw [← Option.some_inj.1 hwords, hlen hB]
      · simp at hwords
    · rw [hA.value, ← stateBit_ext extend h hi]
      split_ifs with hunknown
      · rw [Option.map_some, Option.getD_some, hwrite hB, hB.value]
      · rw [h.isUnknown_iff, not_not] at hunknown
        rw [G4.extB, hunknown, extendNat_zero]
        rfl

end Convert

/-! ## Unary operators -/

section Unary

variable {v : G4}

lemma num_stateAt (h : v.Canonical) (hzero : v.bNat = 0) : num v.width v.stateAt = v.aNat := by
  have hext := num_extBits (w := v.width) false h hzero
  rw [extA_self h] at hext
  rw [← hext]
  exact num_congr fun i hi => (if_pos hi).symm

lemma llgGmpSv4Neg_yields (h : v.Canonical) :
    Yields (llgGmpSv4Neg v) v.width v.isSigned fun i => if v.bNat ≠ 0 then .x
      else Bit.ofBool (((2 ^ v.width - num v.width v.stateAt) % 2 ^ v.width).testBit i) := by
  rw [llgGmpSv4Neg]
  by_cases hunknown : v.bNat ≠ 0
  · have hx : ∀ out, out = llgGmpSv4X v.width v.isSigned → Yields out v.width v.isSigned fun i =>
        if v.bNat ≠ 0 then .x
        else Bit.ofBool (((2 ^ v.width - num v.width v.stateAt) % 2 ^ v.width).testBit i) :=
      fun out hout => hout ▸ (yields_llgGmpSv4X _ _).congr fun i _ => (if_pos hunknown).symm
    apply hx
    by_cases hw : v.width > 64
    · rw [if_pos hw, llgGmpSv4NegWide, if_pos (h.isUnknown_iff.2 hunknown)]
    · rw [if_neg hw, if_pos ((h.smallB_ne_zero (by omega)).2 hunknown)]
  simp only [if_neg hunknown]
  rw [not_not] at hunknown
  rw [num_stateAt h hunknown]
  by_cases hw : v.width > 64
  · rw [if_pos hw, llgGmpSv4NegWide, if_neg (by rw [h.isUnknown_iff]; exact not_not.2 hunknown)]
    have hlen : (negateCarry 1#64 v.a).length = g4Words v.width := by
      rw [show (1#64) = flagWord true from rfl, negateCarry_eq, length_bvNegWords, h.holds_a.length]
      exact crWords_of_pos (by omega)
    refine yields_llgGmpSv4Finish hw hlen (by simp) fun i hi => ?_
    have hneg := holds_negateWords (by omega) h.holds_a
    rw [negateWords] at hneg
    have hmask := holds_maskTop (by omega) hlen
    rw [Option.getD_none, wordsNat_nil, zero_testBit, stateBit_false, ← hneg.value, hmask.value,
      testBit_mod_two_pow, decide_eq_true hi, Bool.true_and]
  · rw [if_neg hw, if_neg (by rw [h.smallB_ne_zero (by omega)]; exact not_not.2 hunknown)]
    refine yields_g4Small (by omega) fun i hi => ?_
    have hmod : (0 - v.smallA).toNat % 2 ^ v.width = (2 ^ v.width - v.aNat) % 2 ^ v.width := by
      obtain ⟨m, hm⟩ := pow_dvd_pow 2 (show v.width ≤ 64 by omega)
      have hlt := h.aNat_lt
      rw [BitVec.toNat_sub, show (0 : BitVec 64).toNat = 0 from rfl, add_zero, h.toNat_smallA (by omega), hm,
        mod_mul_right_mod]
      obtain ⟨k, rfl⟩ : ∃ k, m = k + 1 := exists_eq_succ_of_ne_zero (by rintro rfl; simp at hm)
      rw [show 2 ^ v.width * (k + 1) - v.aNat = 2 ^ v.width - v.aNat + 2 ^ v.width * k by
        rw [mul_succ]; omega, add_mul_mod_self_left]
    rw [show (0 : BitVec 64).getLsbD i = false from getLsbD_zero, stateBit_false,
      ← testBit_toNat, ← hmod, testBit_mod_two_pow, decide_eq_true hi, Bool.true_and]

lemma llgGmpSv4Bitneg_yields (h : v.Canonical) :
    Yields (llgGmpSv4Bitneg v) v.width v.isSigned fun i => bitNegOne (v.stateAt i) := by
  have hbit : ∀ a b, stateBit (!a || b) b = bitNegOne (stateBit a b) := by decide
  rw [llgGmpSv4Bitneg]
  by_cases hw : v.width > 64
  · rw [if_pos hw, llgGmpSv4BitnegWide]
    have halen : v.a.length = g4Words v.width := h.holds_a.length.trans (crWords_of_pos (by omega))
    cases hb : v.b with
    | some b =>
      have hblen : b.length = g4Words v.width := (h.holds_b b hb).length.trans (crWords_of_pos (by omega))
      refine yields_llgGmpSv4Finish hw (by simp [halen, hblen]) (by simpa using hblen) fun i hi => ?_
      have hbval := (h.holds_b b hb).value
      rw [testBit_wordsNat_zipWith _ (halen.trans hblen.symm) (halen ▸ div_lt_g4Words hi), Option.getD_some,
        getLsbD_or, getLsbD_not, decide_eq_true (mod_lt _ (by decide)), Bool.true_and,
        ← testBit_wordsNat, ← testBit_wordsNat, hbit, hbval]
      rfl
    | none =>
      have hzero := G4.bNat_of_none hb
      have hmap : v.a.map (~~~ ·) = (List.range v.a.length).map fun j => ~~~v.a.getD j 0 := by
        refine ext_getElem (by simp) fun j hj hj' => ?_
        rw [getElem_map, getElem_map, getElem_range, getD_eq_getElem _ _ (by simpa using hj)]
      refine yields_llgGmpSv4Finish hw (by simpa using halen) (by simp) fun i hi => ?_
      rw [hmap, testBit_wordsNat_map_range, halen, decide_eq_true (div_lt_g4Words hi), Bool.true_and,
        getLsbD_not, decide_eq_true (mod_lt _ (by decide)), Bool.true_and, ← testBit_wordsNat,
        G4.stateAt, hzero, ← hbit]
      simp [G4.aNat]
  · rw [if_neg hw]
    refine yields_g4Small (by omega) fun i hi => ?_
    rw [getLsbD_or, getLsbD_not, h.getLsbD_smallA (by omega), h.getLsbD_smallB (by omega),
      decide_eq_true (by omega), Bool.true_and, hbit]
    rfl

end Unary

/-! ## The conditional operator -/

section Mux

variable {sel a b : G4}

lemma mergeBit_stateBit (a b a' b' : Bool) :
    stateBit ((a && !((a ^^ a') || b || b')) || ((a ^^ a') || b || b')) ((a ^^ a') || b || b') =
      mergeBit (stateBit a b) (stateBit a' b') := by
  cases a <;> cases b <;> cases a' <;> cases b' <;> rfl

/-- The bits of the conditional operator. -/
def condBits (t : Bit) (f g : ℕ → Bit) (i : ℕ) : Bit :=
  match t with
  | .one => f i
  | .zero => g i
  | _ => mergeBit (f i) (g i)

lemma llgGmpSv4MuxWide_yields (ha : a.Canonical) (hb : b.Canonical) (hw : 64 < g4Maxw a b) :
    Yields (llgGmpSv4MuxWide a b) (g4Maxw a b) (a.isSigned && b.isSigned) fun i =>
      mergeBit (a.extBits (a.isSigned && b.isSigned) i)
        (b.extBits (a.isSigned && b.isSigned) i) := by
  simp only [llgGmpSv4MuxWide]
  generalize (a.isSigned && b.isSigned) = s
  have hA := holds_extA s ha (w := g4Maxw a b) (by omega)
  have hB := holds_extB s ha (w := g4Maxw a b) (by omega)
  refine yields_llgGmpSv4Finish hw (by simp) (by simp) fun i hi => ?_
  rw [Option.getD_some, map_map, map_map, testBit_wordsNat_map_range, testBit_wordsNat_map_range,
    decide_eq_true (div_lt_g4Words hi), Bool.true_and, Bool.true_and]
  simp only [Function.comp, getLsbD_or, getLsbD_and, getLsbD_not, getLsbD_xor,
    getLsbD_of_holds hA, getLsbD_of_holds hB, getLsbD_spanA s hb hi, getLsbD_spanB s hb hi,
    decide_eq_true (mod_lt i (show 64 > 0 by decide)), Bool.true_and]
  rw [mergeBit_stateBit, stateBit_ext s ha hi, stateBit_ext s hb hi]

lemma llgGmpSv4Mux_yields (hsel : sel.Canonical) (ha : a.Canonical) (hb : b.Canonical) :
    Yields (llgGmpSv4Mux sel a b) (g4Maxw a b) (a.isSigned && b.isSigned)
      (condBits (logicalBit sel.toValue) (a.extBits (a.isSigned && b.isSigned))
        (b.extBits (a.isSigned && b.isSigned))) := by
  have hne := logicalBit_ne_z sel.toValue
  rw [llgGmpSv4Mux, g4Truth_eq hsel]
  generalize logicalBit sel.toValue = t at hne ⊢
  cases t with
  | zero => exact convert_yields hb _ _ _
  | one => exact convert_yields ha _ _ _
  | z => exact absurd rfl hne
  | x =>
    have hwidths := g4Maxw_eq a b
    by_cases hw : g4Maxw a b > 64
    · simp only [bitCode, ne_eq, not_true, if_false, if_pos hw]
      exact llgGmpSv4MuxWide_yields ha hb hw
    · simp only [bitCode, ne_eq, not_true, if_false, if_neg hw]
      refine yields_g4Small (by omega) fun i hi => ?_
      have haw : a.width ≤ 64 := by omega
      have hbw : b.width ≤ 64 := by omega
      have hw64 : g4Maxw a b ≤ 64 := by omega
      simp only [getLsbD_or, getLsbD_and, getLsbD_not, getLsbD_xor,
        getLsbD_extendA ha haw hw64, getLsbD_extendB ha haw hw64, getLsbD_extendA hb hbw hw64,
        getLsbD_extendB hb hbw hw64, decide_eq_true (show i < 64 by omega), Bool.true_and]
      rw [mergeBit_stateBit, stateBit_ext _ ha hi, stateBit_ext _ hb hi]
      rfl

end Mux

/-! ## Shifts -/

section Shifts

variable {v count : G4} {w : ℕ} {s right arith : Bool}

/-- One plane of a shifted value. -/
def shiftPlaneBit (w : ℕ) (s right arith : Bool) (x n i : ℕ) : Bool :=
  if right then if i + n < w then x.testBit (i + n) else arith && s && x.testBit (w - 1)
  else decide (n ≤ i) && x.testBit (i - n)

lemma shiftBits_stateAt (v : G4) (w : ℕ) (s right arith : Bool) (n i : ℕ) :
    shiftBits w s right arith v.stateAt n i =
      stateBit (shiftPlaneBit w s right arith v.aNat n i) (shiftPlaneBit w s right arith v.bNat n i) := by
  simp only [shiftBits, shiftPlaneBit]
  cases right with
  | true =>
    rw [if_pos rfl, if_pos rfl, if_pos rfl]
    split_ifs with hlt hsign
    · rfl
    · rw [hsign.1, hsign.2]
      rfl
    · have hfalse : (arith && s) = false := by simpa using hsign
      rw [hfalse, Bool.false_and, Bool.false_and]
      rfl
  | false =>
    rw [if_neg Bool.false_ne_true, if_neg Bool.false_ne_true, if_neg Bool.false_ne_true]
    by_cases hle : n ≤ i
    · rw [if_pos hle, decide_eq_true hle, Bool.true_and, Bool.true_and]
      rfl
    · rw [if_neg hle, decide_eq_false hle, Bool.false_and, Bool.false_and]
      rfl

lemma getLsbD_flag (p : Prop) [Decidable p] {k : ℕ} (hk : k < 64) :
    (if p then BitVec.allOnes 64 else 0#64).getLsbD k = decide p := by
  refine (getLsbD_ite_zero p _ k).trans ?_
  rw [BitVec.getLsbD_allOnes, decide_eq_true hk, Bool.and_true]

/-! ### One word -/

/-- The fill of a word. -/
lemma decide_fill_word {x : BitVec 64} (hpos : 0 < w) :
    decide (right = true ∧ arith = true ∧ s = true ∧ w ≠ 0 ∧
      (x >>> (if w ≠ 0 then w - 1 else 0)) &&& 1#64 ≠ 0) =
      (right && (arith && s && x.toNat.testBit (w - 1))) := by
  rw [Bool.eq_iff_iff, decide_eq_true_iff, if_pos (by omega), shift_and_one_ne_zero, ← testBit_toNat]
  simp [Nat.pos_iff_ne_zero.1 hpos, and_assoc]

variable {input : Words} {i n x : ℕ}

/-- A word that is shifted to the right. -/
lemma getLsbD_shiftRight_word {x : BitVec 64} (hx : x.toNat < 2 ^ w) (hn : n < w) (hi : i < w)
    (hw : w ≤ 64) (p : Prop) [Decidable p] :
    ((x >>> n) ||| ((if p then BitVec.allOnes 64 else 0#64) &&& ~~~g4Mask (w - n))).getLsbD i =
      if i + n < w then x.toNat.testBit (i + n) else decide p := by
  rw [getLsbD_or, BitVec.getLsbD_ushiftRight, getLsbD_and, getLsbD_flag p (by omega),
    getLsbD_not, getLsbD_g4Mask, ← testBit_toNat, add_comm n i]
  by_cases hlt : i + n < w
  · rw [if_pos hlt]
    simp [show i < w - n by omega, show i < 64 by omega]
  · rw [if_neg hlt, testBit_beyond hx (Nat.not_lt.1 hlt)]
    simp [show ¬i < w - n by omega, show i < 64 by omega]

lemma g4ShiftSmall_yields (h : v.Canonical) (hw : v.width ≤ 64) (sh : BitVec 64) (right arith : Bool) :
    Yields (g4ShiftSmall v sh right arith) v.width v.isSigned
      (shiftBits v.width v.isSigned right arith v.stateAt sh.toNat) := by
  have hA := h.toNat_smallA hw
  have hB := h.toNat_smallB hw
  have hAlt : v.smallA.toNat < 2 ^ v.width := hA ▸ h.aNat_lt
  have hBlt : v.smallB.toNat < 2 ^ v.width := hB ▸ h.bNat_lt
  simp only [g4ShiftSmall]
  by_cases hout : sh.toNat ≥ v.width
  · rw [if_pos hout]
    refine yields_g4Small hw fun i hi => ?_
    rw [getLsbD_flag _ (by omega), getLsbD_flag _ (by omega), decide_fill_word (by omega),
      decide_fill_word (by omega), hA, hB, shiftBits_stateAt, shiftPlaneBit, shiftPlaneBit]
    cases right
    · simp [show ¬sh.toNat ≤ i by omega]
    · simp [show ¬i + sh.toNat < v.width by omega]
  rw [if_neg hout]
  by_cases hzero : sh = 0
  · rw [if_pos hzero]
    refine h.yields.congr fun i hi => ?_
    rw [hzero, shiftBits]
    cases right
    · simp
    · simp [hi]
  rw [if_neg hzero]
  cases right with
  | true =>
    rw [if_pos rfl]
    refine yields_g4Small hw fun i hi => ?_
    rw [getLsbD_shiftRight_word hAlt (by omega) hi hw, getLsbD_shiftRight_word hBlt (by omega) hi hw,
      decide_fill_word (by omega), decide_fill_word (by omega), hA, hB, shiftBits_stateAt]
    rfl
  | false =>
    rw [if_neg Bool.false_ne_true]
    refine yields_g4Small hw fun i hi => ?_
    rw [BitVec.getLsbD_shiftLeft, BitVec.getLsbD_shiftLeft, ← testBit_toNat, ← testBit_toNat, hA,
      hB, shiftBits_stateAt, shiftPlaneBit, shiftPlaneBit]
    by_cases hle : sh.toNat ≤ i
    · simp [show i < 64 by omega, hle, show ¬i < sh.toNat by omega]
    · simp [show i < 64 by omega, hle, show i < sh.toNat by omega]

/-! ### Arrays of words -/

/-- Word `j` of an array, with the sign beyond its `w` bits. -/
def shiftSource (input : Words) (w : ℕ) (fill : BitVec 64) (j : ℕ) : BitVec 64 :=
  let word := if j < g4Words w then input.getD j 0 else fill
  if j + 1 = g4Words w then word ||| (fill &&& ~~~g4Topmask w) else word

lemma getLsbD_shiftSource (hinput : wordsNat input = x) (hx : x < 2 ^ w)
    (p : Prop) [Decidable p] (j : ℕ) {k : ℕ} (hk : k < 64) :
    (shiftSource input w (if p then BitVec.allOnes 64 else 0#64) j).getLsbD k =
      if 64 * j + k < w then x.testBit (64 * j + k) else decide p := by
  have hword := getLsbD_getD input hk (Eq.refl (64 * j + k))
  rw [hinput] at hword
  have hbeyond : w ≤ 64 * j + k → x.testBit (64 * j + k) = false := fun hle =>
    testBit_beyond hx hle
  simp only [shiftSource]
  by_cases hj : j < g4Words w
  · rw [if_pos hj]
    by_cases hlast : j + 1 = g4Words w
    · have htop : (g4Topmask w).getLsbD k = decide (64 * j + k < w) := by
        have hmask := getLsbD_wordMask hj hk
        rwa [wordMask, if_pos hlast] at hmask
      rw [if_pos hlast, getLsbD_or, getLsbD_and, getLsbD_not, getLsbD_flag p hk, hword, htop]
      by_cases hlt : 64 * j + k < w
      · rw [if_pos hlt]
        simp [hlt]
      · rw [if_neg hlt, hbeyond (by omega)]
        simp [hlt, hk]
    · rw [if_neg hlast, if_pos (by rw [g4Words] at hj hlast; omega)]
      exact hword
  · rw [if_neg hj, if_neg (by omega), getLsbD_flag p hk, if_neg (by rw [g4Words] at hj; omega)]

lemma length_shiftPlane (input : Words) (w n : ℕ) (right : Bool) (fill : BitVec 64) :
    (shiftPlane input w n right fill).length = g4Words w := by
  simp [shiftPlane, maskTop]

/-- `shift_plane`, bit by bit. -/
lemma testBit_shiftPlane (hw : 0 < w) (hinput : wordsNat input = x)
    (hx : x < 2 ^ w) (hi : i < w) (right : Bool) (p : Prop) [Decidable p] :
    (wordsNat (shiftPlane input w n right (if p then BitVec.allOnes 64 else 0#64))).testBit i =
      if right then if i + n < w then x.testBit (i + n) else decide p
      else decide (n ≤ i) && x.testBit (i - n) := by
  have hk : i % 64 < 64 := mod_lt _ (by decide)
  simp only [shiftPlane]
  rw [(holds_maskTop hw (by simp)).value, testBit_mod_two_pow, decide_eq_true hi, Bool.true_and,
    testBit_wordsNat_map_range, decide_eq_true (div_lt_g4Words hi), Bool.true_and]
  cases right with
  | true =>
    have hwindow := getLsbD_window (shiftSource input w (if p then BitVec.allOnes 64 else 0#64))
      (64 * (i / 64) + n) hk (by omega : ¬n % 64 ≠ 0 → _)
    rw [show 64 * (i / 64) + n + i % 64 = i + n by omega,
      getLsbD_shiftSource hinput hx p _ (mod_lt _ (by decide)), div_add_mod,
      show (64 * (i / 64) + n) / 64 = i / 64 + n / 64 by omega,
      show (64 * (i / 64) + n) % 64 = n % 64 by omega] at hwindow
    rw [if_pos rfl, if_pos rfl, or_ite_zero]
    exact hwindow
  | false =>
    rw [if_neg Bool.false_ne_true, if_neg Bool.false_ne_true]
    by_cases hwhole : i / 64 ≥ n / 64
    · have hmoved := getLsbD_moved (input.getD · 0) hk hwhole
      rw [div_add_mod, ← testBit_wordsNat, hinput] at hmoved
      rw [if_pos hwhole, or_ite_zero, ← hmoved]
      simp only [ne_eq, Nat.sub_eq_zero_iff_le, not_le]
    · rw [if_neg hwhole, decide_eq_false (by omega), Bool.false_and]
      exact getLsbD_zero

/-- `shift_plane` with the fill of an arithmetic shift. -/
lemma testBit_shiftPlane_fill (hw : 0 < w) (hinput : Holds w input x) (hi : i < w) (s right arith : Bool) :
    (wordsNat (shiftPlane input w n right (if right = true ∧ arith = true ∧ s = true ∧
      (input.getD (g4Words w - 1) 0 >>> ((w - 1) % 64)) &&& 1#64 ≠ 0 then BitVec.allOnes 64 else 0#64))).testBit i =
      shiftPlaneBit w s right arith x n i := by
  have hfill : decide (right = true ∧ arith = true ∧ s = true ∧
      (input.getD (g4Words w - 1) 0 >>> ((w - 1) % 64)) &&& 1#64 ≠ 0) =
      (right && (arith && s && x.testBit (w - 1))) := by
    rw [Bool.eq_iff_iff, decide_eq_true_iff, signBit_iff hw hinput]
    simp [and_assoc]
  rw [testBit_shiftPlane hw hinput.value hinput.lt hi, hfill, shiftPlaneBit]
  cases right <;> rfl

/-- The state of one bit is its code. -/
lemma llgGmpSv4State_eq (v : G4) (hi : i < v.width) : llgGmpSv4State v i = bitCode (v.stateAt i) := by
  have hword : ∀ x : BitVec 64, ∀ k, (x >>> k) &&& 1#64 = if x.getLsbD k = true then 1#64 else 0#64 := by
    intro x k
    apply BitVec.eq_of_toNat_eq
    rw [BitVec.toNat_and, BitVec.toNat_ushiftRight, shiftRight_eq_div_pow,
      show (1#64).toNat = 2 ^ 1 - 1 from rfl, and_two_pow_sub_one_eq_mod, Nat.pow_one, ← toNat_testBit,
      testBit_toNat]
    cases x.getLsbD k <;> rfl
  rw [llgGmpSv4State, if_neg (by omega)]
  simp only [hword, ← testBit_wordsNat, ← bNat_eq_wordsNat]
  rw [← G4.aNat, G4.stateAt]
  cases v.aNat.testBit i <;> cases v.bNat.testBit i <;> rfl

/-- The count of a wide shift: its first word, if the others are zero. -/
lemma shift_words (hc : count.Canonical) :
    (((count.a.take (g4Words count.width)).drop 1).any (· ≠ 0) = true → 2 ^ 64 ≤ count.aNat) ∧
    (¬((count.a.take (g4Words count.width)).drop 1).any (· ≠ 0) = true →
      (if g4Words count.width ≠ 0 then count.a.headD 0 else 0).toNat = count.aNat) := by
  rcases Nat.eq_zero_or_pos count.width with hzero | hpos
  · have hn : g4Words count.width = 0 := by
      rw [hzero]
      rfl
    have haNat : count.aNat = 0 := by
      have hlt := hc.aNat_lt
      rw [hzero] at hlt
      omega
    rw [hn, haNat]
    simp
  have hlen : count.a.length = g4Words count.width := hc.holds_a.length.trans (crWords_of_pos hpos)
  have hn : g4Words count.width ≠ 0 := by
    rw [g4Words]
    omega
  rw [if_pos hn, ← hlen, take_length, G4.aNat]
  cases hwords : count.a with
  | nil =>
    rw [hwords] at hlen
    exact absurd hlen.symm hn
  | cons =>
    rw [drop_one, tail_cons, headD_cons, wordsNat_cons, bNat_eq_zero_iff]
    constructor
    · intro hne
      exact (Nat.le_mul_of_pos_right _ (pos_of_ne_zero hne)).trans (Nat.le_add_left _ _)
    · intro hne
      rw [not_not.1 hne, mul_zero, add_zero]

/-- A number of places that stands for the count: one that is too long moves all bits out. -/
def Counts (v count : G4) (n : ℕ) : Prop :=
  count.bNat = 0 → (count.aNat < 2 ^ 64 → n = count.aNat) ∧ (2 ^ 64 ≤ count.aNat → v.width ≤ n)

lemma llgGmpSv4ShiftWide_yields (h : v.Canonical) (hc : count.Canonical) (hknown : count.bNat = 0)
    (hn : Counts v count n) (right arith : Bool) :
    Yields (llgGmpSv4ShiftWide v count right arith) v.width v.isSigned
      (shiftBits v.width v.isSigned right arith v.stateAt n) := by
  obtain ⟨hover, hshift⟩ := shift_words hc
  rw [llgGmpSv4ShiftWide, if_neg (by rw [hc.isUnknown_iff]; exact not_not.2 hknown)]
  simp only
  generalize ((count.a.take (g4Words count.width)).drop 1).any (· ≠ 0) = oversized at *
  generalize (if g4Words count.width ≠ 0 then count.a.headD 0 else 0) = shift at *
  by_cases hbig : oversized = true ∨ shift.toNat ≥ v.width
  · -- all bits are shifted out
    rw [if_pos hbig]
    have hcount : v.width ≤ n := by
      by_cases hov : oversized = true
      · exact (hn hknown).2 (hover hov)
      · rw [(hn hknown).1 (hshift hov ▸ shift.isLt), ← hshift hov]
        exact hbig.resolve_left hov
    have hstate : (if right = true ∧ arith = true ∧ v.isSigned = true ∧ v.width ≠ 0 then
        llgGmpSv4State v (v.width - 1) else 0) =
        bitCode (if right = true ∧ arith = true ∧ v.isSigned = true ∧ v.width ≠ 0 then
          v.stateAt (v.width - 1) else .zero) := by
      split_ifs with hfill
      · exact llgGmpSv4State_eq v (by omega)
      · rfl
    rw [hstate]
    refine (yields_llgGmpSv4Fill _ _ _).congr fun i hi => ?_
    rw [shiftBits, if_neg (by omega : ¬i + n < v.width), if_neg (by omega : ¬n ≤ i)]
    cases right <;> simp [show v.width ≠ 0 by omega]
  rw [if_neg hbig]
  rw [not_or] at hbig
  have hcount := hshift hbig.1
  rw [(hn hknown).1 (hcount ▸ shift.isLt), ← hcount]
  by_cases hsmall : v.width ≤ 64
  · rw [if_pos hsmall]
    exact g4ShiftSmall_yields h hsmall shift right arith
  rw [if_neg hsmall]
  by_cases hzero : shift = 0
  · rw [if_pos hzero]
    refine h.yields.congr fun i hi => ?_
    rw [hzero, shiftBits]
    cases right
    · simp
    · simp [hi]
  rw [if_neg hzero]
  have hpos : 0 < v.width := by omega
  refine yields_llgGmpSv4Finish (by omega) (length_shiftPlane ..) ?_ fun i hi => ?_
  · intro words hwords
    obtain ⟨b, -, rfl⟩ := Option.map_eq_some_iff.1 hwords
    exact length_shiftPlane ..
  rw [shiftBits_stateAt, testBit_shiftPlane_fill hpos h.holds_a hi]
  congr 1
  cases hb : v.b with
  | some b => exact testBit_shiftPlane_fill hpos (h.holds_b b hb) hi ..
  | none =>
    rw [G4.bNat_of_none hb, shiftPlaneBit]
    simp

lemma g4Shift_yields (h : v.Canonical) (hc : count.Canonical) (hn : Counts v count n) (right arith : Bool) :
    Yields (g4Shift v count right arith) v.width v.isSigned fun i => if count.bNat ≠ 0 then .x
      else shiftBits v.width v.isSigned right arith v.stateAt n i := by
  rw [g4Shift]
  by_cases hunknown : count.bNat ≠ 0
  · simp only [if_pos hunknown]
    by_cases hwide : v.width > 64 ∨ count.width > 64
    · rw [if_pos hwide, llgGmpSv4ShiftWide, if_pos (hc.isUnknown_iff.2 hunknown)]
      exact yields_llgGmpSv4X _ _
    · rw [if_neg hwide, if_pos ((hc.smallB_ne_zero (by omega)).2 hunknown)]
      exact yields_llgGmpSv4X _ _
  simp only [if_neg hunknown]
  rw [not_not] at hunknown
  by_cases hwide : v.width > 64 ∨ count.width > 64
  · rw [if_pos hwide]
    exact llgGmpSv4ShiftWide_yields h hc hunknown hn right arith
  · have hcount := hc.toNat_smallA (by omega)
    rw [if_neg hwide, if_neg (by rw [hc.smallB_ne_zero (by omega)]; exact not_not.2 hunknown),
      (hn hunknown).1 (hcount ▸ count.smallA.isLt), ← hcount]
    exact g4ShiftSmall_yields h (by omega) _ right arith

end Shifts

end Lapligence.Value
