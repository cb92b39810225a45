import Lapligence.Value.BinarySpecs

/-!
# What the predicates yield

Truth values, logical operators, reductions, comparisons and matches.  All of them have a result of one bit,
which `g4_predicate` makes from a code.  Each operator reads the planes of its operands word by word, the
narrow path one word and the wide path a loop of them, and `exists_word_ne_zero` turns the tests of the words
into statements about bits.
-/

namespace Lapligence.Value

open WordLists LongDivision Popcount Constraints Elab BitVec List

/-! ## Codes of bits -/

/-- The code of a bit: 0, 1, 2 for X and 3 for Z. -/
def bitCode : Bit → ℕ
  | .zero => 0
  | .one => 1
  | .x => 2
  | .z => 3

/-- `llg_gmp_sv4_fill` repeats a bit. -/
lemma yields_llgGmpSv4Fill (b : Bit) (w : ℕ) (s : Bool) :
    Yields (llgGmpSv4Fill (bitCode b) w s) w s fun _ => b := by
  obtain ⟨hcanonical, hwidth, hsigned, haNat, hbNat⟩ := llgGmpSv4Fill_spec (bitCode b) w s
  refine ⟨hcanonical, hwidth, hsigned, fun i hi => ?_⟩
  rw [G4.stateAt, haNat, hbNat]
  cases b <;> simp [bitCode, hi, stateBit]

lemma yields_g4Predicate (b : Bit) : Yields (g4Predicate (bitCode b)) 1 false fun _ => b :=
  yields_llgGmpSv4Fill b 1 false

lemma yields_of_code {v : G4} {b : Bit} (h : v = g4Predicate (bitCode b)) : Yields v 1 false fun _ => b :=
  h ▸ yields_g4Predicate b

/-! ## Bits of the planes -/

/-- A number of `w` bits has no bits beyond them. -/
lemma testBit_and_eq {x w : ℕ} (hx : x < 2 ^ w) (i : ℕ) (p : Bool) :
    (x.testBit i && p) = (decide (i < w) && (x.testBit i && p)) := by
  by_cases hi : i < w
  · rw [decide_eq_true hi, Bool.true_and]
  · rw [testBit_beyond hx (Nat.not_lt.1 hi),
      Bool.false_and, Bool.and_false]

lemma ne_zero_iff_testBit {x w : ℕ} (hx : x < 2 ^ w) : x ≠ 0 ↔ ∃ i < w, x.testBit i = true := by
  constructor
  · intro hne
    obtain ⟨i, hi⟩ := Nat.exists_testBit_of_ne_zero hne
    have hlt := testBit_and_eq hx i true
    rw [hi, Bool.and_true, Bool.and_true] at hlt
    exact ⟨i, of_decide_eq_true hlt.symm, hi⟩
  · rintro ⟨i, -, hi⟩ rfl
    rw [Nat.zero_testBit] at hi
    exact Bool.false_ne_true hi

section Planes

variable {v : G4}

lemma G4.Canonical.getLsbD_smallA (h : v.Canonical) (hw : v.width ≤ 64) (k : ℕ) :
    v.smallA.getLsbD k = v.aNat.testBit k := by
  rw [← testBit_toNat, h.toNat_smallA hw]

lemma G4.Canonical.getLsbD_smallB (h : v.Canonical) (hw : v.width ≤ 64) (k : ℕ) :
    v.smallB.getLsbD k = v.bNat.testBit k := by
  rw [← testBit_toNat, h.toNat_smallB hw]

lemma getLsbD_getD_a (v : G4) (j : ℕ) {k : ℕ} (hk : k < 64) :
    (v.a.getD j 0).getLsbD k = v.aNat.testBit (64 * j + k) :=
  getLsbD_getD v.a hk rfl

lemma getLsbD_getD_wordsB (v : G4) (j : ℕ) {k : ℕ} (hk : k < 64) :
    (v.wordsB.getD j 0).getLsbD k = v.bNat.testBit (64 * j + k) := by
  rw [bNat_eq_wordsNat, getLsbD_getD v.wordsB hk rfl]

/-- The masks of the words of a value cut it at its width. -/
lemma getLsbD_wordMask {w j k : ℕ} (hj : j < g4Words w) (hk : k < 64) :
    (wordMask w (g4Words w) j).getLsbD k = decide (64 * j + k < w) := by
  rw [g4Words] at hj
  rw [wordMask]
  by_cases hlast : j + 1 = g4Words w
  · rw [if_pos hlast, g4Topmask]
    rw [g4Words] at hlast
    split_ifs with htop <;>
    · rw [getLsbD_g4Mask]
      congr 1
      apply propext
      omega
  · rw [if_neg hlast, getLsbD_allOnes]
    rw [g4Words] at hlast
    congr 1
    apply propext
    omega

/-- A wide value has a plane `b` if it has unknown bits. -/
lemma G4.Canonical.isSome_b_wide (h : v.Canonical) (hw : 64 < v.width) : v.b.isSome = true ↔ v.bNat ≠ 0 := by
  rw [h.isSome_b]
  exact or_iff_right (by omega)

lemma exists_unknown_iff (h : v.Canonical) :
    (∃ i < v.width, (v.stateAt i).isUnknown = true) ↔ v.bNat ≠ 0 := by
  rw [← toValue_isUnknown h, G4.toValue, isUnknown_ofBits]

end Planes

/-! ## Truth values -/

section Truth

variable {v a b : G4}

lemma stateAt_eq_one_iff {i : ℕ} :
    v.stateAt i = .one ↔ (v.aNat.testBit i && !v.bNat.testBit i) = true := by
  rw [G4.stateAt, stateBit_eq_one, Bool.and_eq_true, Bool.not_eq_true']

/-- The test of the narrow path for a one. -/
lemma smallA_and_not_smallB_ne_zero (h : v.Canonical) (hw : v.width ≤ 64) :
    v.smallA &&& ~~~v.smallB ≠ 0 ↔ ∃ i < v.width, v.stateAt i = .one := by
  simp only [stateAt_eq_one_iff]
  refine word_ne_zero hw fun k hk => ?_
  rw [getLsbD_and, getLsbD_not, decide_eq_true hk, Bool.true_and, h.getLsbD_smallA hw,
    h.getLsbD_smallB hw]
  exact testBit_and_eq h.aNat_lt ..

/-- The test of the wide path for a one. -/
lemma exists_word_one (h : v.Canonical) :
    (∃ j < g4Words v.width, v.a.getD j 0 &&& ~~~v.wordsB.getD j 0 ≠ 0) ↔
      ∃ i < v.width, v.stateAt i = .one := by
  simp only [stateAt_eq_one_iff]
  refine exists_word_ne_zero (by rw [g4Words]; omega) fun j _ k hk => ?_
  rw [getLsbD_and, getLsbD_not, decide_eq_true hk, Bool.true_and, getLsbD_getD_a v j hk,
    getLsbD_getD_wordsB v j hk]
  exact testBit_and_eq h.aNat_lt ..

/-- The test of the loops of `llg_gmp_sv4_truth_wide`. -/
lemma any_zipWith_iff {xs ys : Words} {n : ℕ} (hx : xs.length = n) (hy : ys.length = n)
    (f : BitVec 64 → BitVec 64 → BitVec 64) :
    (List.zipWith f xs ys).any (· ≠ 0) = true ↔ ∃ j < n, f (xs.getD j 0) (ys.getD j 0) ≠ 0 := by
  rw [any_eq_true]
  constructor
  · rintro ⟨x, hmem, hne⟩
    obtain ⟨j, hj, rfl⟩ := mem_iff_getElem.1 hmem
    rw [length_zipWith, hx, hy, Nat.min_self] at hj
    refine ⟨j, hj, ?_⟩
    rw [getD_eq_getElem _ _ (hx ▸ hj), getD_eq_getElem _ _ (hy ▸ hj)]
    simpa using hne
  · rintro ⟨j, hj, hne⟩
    rw [getD_eq_getElem _ _ (hx ▸ hj), getD_eq_getElem _ _ (hy ▸ hj)] at hne
    have hlen : j < (List.zipWith f xs ys).length := by simpa [hx, hy] using hj
    exact ⟨_, getElem_mem hlen, by simpa using hne⟩

/-- `g4_truth` is the code of the logical value. -/
lemma g4Truth_eq (h : v.Canonical) : g4Truth v = bitCode (logicalBit v.toValue) := by
  have hcode : bitCode (logicalBit v.toValue) =
      if ∃ i < v.width, v.stateAt i = .one then 1 else if v.bNat ≠ 0 then 2 else 0 := by
    rw [G4.toValue, logicalBit_ofBits]
    simp only [exists_unknown_iff h]
    split_ifs <;> rfl
  rw [hcode, g4Truth]
  by_cases hw : v.width > 64
  · rw [if_pos hw, llgGmpSv4TruthWide]
    have hone := exists_word_one h
    have hsome := h.isSome_b_wide hw
    cases hb : v.b with
    | some b =>
      rw [hb] at hsome
      have hbNat : v.bNat ≠ 0 := hsome.1 rfl
      have hwords : v.wordsB = b := by rw [G4.wordsB, hb]; rfl
      have hany := any_zipWith_iff h.holds_a.length (h.holds_b b hb).length fun a b => a &&& ~~~b
      rw [← hwords, crWords_of_pos (by omega), ← g4Words, hone, hwords] at hany
      simp only [hany, if_pos hbNat]
    | none =>
      rw [hb] at hsome
      have hbNat : v.bNat = 0 := by simpa using hsome
      have hany : v.a.any (· ≠ 0) = true ↔ ∃ i < v.width, v.stateAt i = .one := by
        simp only [stateAt_eq_one_iff, hbNat, Nat.zero_testBit, Bool.not_false, Bool.and_true]
        rw [bNat_eq_zero_iff]
        exact ne_zero_iff_testBit h.aNat_lt
      simp only [hany, hbNat, ne_eq, not_true, if_false]
  · rw [if_neg hw]
    simp only [smallA_and_not_smallB_ne_zero h (by omega), h.smallB_ne_zero (by omega)]

lemma logicalBit_ne_z (v : Elab.Value) : logicalBit v ≠ .z := by
  rw [logicalBit]
  split_ifs <;> decide

/-! ### Logical operators -/

lemma llgGmpSv4Lognot_yields (h : v.Canonical) :
    Yields (llgGmpSv4Lognot v) 1 false fun _ => bitNegOne (logicalBit v.toValue) := by
  have hne := logicalBit_ne_z v.toValue
  refine yields_of_code ?_
  rw [llgGmpSv4Lognot, g4Truth_eq h]
  generalize logicalBit v.toValue = t at *
  cases t <;> first | rfl | exact absurd rfl hne

section Two

variable (ha : a.Canonical) (hb : b.Canonical)

include ha hb

/-- An operator that is a function `f` of the codes of two truth values, neither of which is Z. -/
lemma yields_of_truths {out : G4} (f : Bit → Bit → Bit)
    (hout : ∀ t u, t ≠ .z → u ≠ .z → g4Truth a = bitCode t → g4Truth b = bitCode u →
      out = g4Predicate (bitCode (f t u))) :
    Yields out 1 false fun _ => f (logicalBit a.toValue) (logicalBit b.toValue) := by
  exact yields_of_code (hout _ _ (logicalBit_ne_z a.toValue) (logicalBit_ne_z b.toValue) (g4Truth_eq ha) (g4Truth_eq hb))

lemma llgGmpSv4Logand_yields :
    Yields (llgGmpSv4Logand a b) 1 false fun _ => andBit (logicalBit a.toValue) (logicalBit b.toValue) := by
  refine yields_of_truths ha hb andBit fun t u _ _ hx hy => ?_
  rw [llgGmpSv4Logand, hx, hy]
  cases t <;> cases u <;> rfl

lemma llgGmpSv4Logor_yields :
    Yields (llgGmpSv4Logor a b) 1 false fun _ => orBit (logicalBit a.toValue) (logicalBit b.toValue) := by
  refine yields_of_truths ha hb orBit fun t u _ _ hx hy => ?_
  rw [llgGmpSv4Logor, hx, hy]
  cases t <;> cases u <;> rfl

lemma llgGmpSv4Logimpl_yields :
    Yields (llgGmpSv4Logimpl a b) 1 false fun _ =>
      orBit (bitNegOne (logicalBit a.toValue)) (logicalBit b.toValue) := by
  refine yields_of_truths ha hb (fun t => orBit (bitNegOne t)) fun t u _ _ hx hy => ?_
  rw [llgGmpSv4Logimpl, hx, hy]
  cases t <;> cases u <;> rfl

lemma llgGmpSv4Logequiv_yields :
    Yields (llgGmpSv4Logequiv a b) 1 false fun _ =>
      bitNegOne (xorBit (logicalBit a.toValue) (logicalBit b.toValue)) := by
  refine yields_of_truths ha hb (fun t u => bitNegOne (xorBit t u)) fun t u ht hu hx hy => ?_
  rw [llgGmpSv4Logequiv, hx, hy]
  cases t <;> cases u <;> first | rfl | contradiction

end Two

end Truth

/-! ## Reductions -/

section Reductions

variable {v : G4}

/-- The reduction of a vector of bits to one. -/
def reduceBit (kind : ReduceKind) (w : ℕ) (f : ℕ → Bit) : Bit :=
  match kind with
  | .and => if ∃ i < w, f i = .zero then .zero else if ∃ i < w, (f i).isUnknown = true then .x else .one
  | .or => if ∃ i < w, f i = .one then .one else if ∃ i < w, (f i).isUnknown = true then .x else .zero
  | .xor =>
    if ∃ i < w, (f i).isUnknown = true then .x else Bit.ofBool (xorSum w fun i => decide (f i = .one))

lemma reduceBit_ne_z (kind : ReduceKind) (w : ℕ) (f : ℕ → Bit) : reduceBit kind w f ≠ .z := by
  have hbool : ∀ b, Bit.ofBool b ≠ .z := by decide
  cases kind <;> simp only [reduceBit] <;> split_ifs <;> first | decide | exact hbool _

lemma reduceResult_yields {b : Bit} (hb : b ≠ .z) (invert : Bool) :
    Yields (reduceResult invert (bitCode b)) 1 false fun _ => if invert then bitNegOne b else b := by
  refine yields_of_code ?_
  cases invert <;> cases b <;> first | rfl | contradiction

lemma stateAt_eq_zero_iff {i : ℕ} :
    v.stateAt i = .zero ↔ (!v.aNat.testBit i && !v.bNat.testBit i) = true := by
  rw [G4.stateAt, stateBit_eq_zero, Bool.and_eq_true, Bool.not_eq_true', Bool.not_eq_true']

/-- The parity of a word. -/
lemma g4Popcount_and_one (x : BitVec 64) :
    (g4Popcount x &&& 1#64).toNat = (xorSum 64 x.getLsbD).toNat := by
  rw [toNat_and, show (1#64).toNat = 2 ^ 1 - 1 from rfl, Nat.and_two_pow_sub_one_eq_mod,
    show g4Popcount x = popcount x from rfl, toNat_popcount, Nat.pow_one, windowNat_one_mod_two]

/-- The loop that adds up the parities of the words. -/
lemma parity_foldl (words : ℕ → BitVec 64) (n : ℕ) :
    ((List.range n).foldl (fun parity i => parity ^^^ (g4Popcount (words i) &&& 1#64)) 0#64).toNat =
      (xorSum (64 * n) fun i => (words (i / 64)).getLsbD (i % 64)).toNat := by
  induction n with
  | zero => rfl
  | succ n ih =>
    rw [range_succ, foldl_append, foldl_cons, foldl_nil, toNat_xor, ih,
      g4Popcount_and_one, Nat.mul_succ, xorSum_add]
    have hlast : (xorSum 64 fun i => (words ((64 * n + i) / 64)).getLsbD ((64 * n + i) % 64)) =
        xorSum 64 (words n).getLsbD := by
      refine xorSum_congr fun i hi => ?_
      rw [show (64 * n + i) / 64 = n by omega, show (64 * n + i) % 64 = i by omega]
    rw [hlast]
    cases xorSum (64 * n) fun i => (words (i / 64)).getLsbD (i % 64) <;>
      cases xorSum 64 (words n).getLsbD <;> rfl

/-- Bits that are zero do not count. -/
lemma xorSum_of_le {f : ℕ → Bool} {w n : ℕ} (hw : w ≤ n) (hzero : ∀ i, w ≤ i → f i = false) :
    xorSum n f = xorSum w f := by
  induction n, hw using Nat.le_induction with
  | base => rfl
  | succ n hn ih => rw [xorSum_succ, ih, hzero n hn, Bool.xor_false]

/-- The parity of a known value. -/
lemma xorSum_stateAt (h : v.Canonical) (hzero : v.bNat = 0) {n : ℕ} (hn : v.width ≤ n) :
    xorSum n v.aNat.testBit = xorSum v.width fun i => decide (v.stateAt i = .one) := by
  rw [xorSum_of_le hn fun i hi =>
    testBit_beyond h.aNat_lt hi]
  refine xorSum_congr fun i _ => ?_
  simp [stateAt_eq_one_iff, hzero]

/-- The narrow path. -/
lemma g4Reduce_narrow (h : v.Canonical) (hw : v.width ≤ 64) (kind : ReduceKind) (invert : Bool) :
    g4Reduce v kind invert = reduceResult invert (bitCode (reduceBit kind v.width v.stateAt)) := by
  rw [g4Reduce, if_neg (by omega)]
  cases kind with
  | and =>
    have hzero : ~~~v.smallA &&& ~~~v.smallB &&& g4Mask v.width ≠ 0 ↔
        ∃ i < v.width, v.stateAt i = .zero := by
      simp only [stateAt_eq_zero_iff]
      refine word_ne_zero hw fun k hk => ?_
      rw [getLsbD_and, getLsbD_and, getLsbD_not, getLsbD_not, getLsbD_g4Mask,
        h.getLsbD_smallA hw, h.getLsbD_smallB hw, Bool.and_comm]
      simp [hk]
    simp only [reduceBit, hzero, h.smallB_ne_zero hw, exists_unknown_iff h]
    split_ifs <;> rfl
  | or =>
    simp only [reduceBit, smallA_and_not_smallB_ne_zero h hw, h.smallB_ne_zero hw, exists_unknown_iff h]
    split_ifs <;> rfl
  | xor =>
    simp only [reduceBit, h.smallB_ne_zero hw, exists_unknown_iff h]
    split_ifs with hunknown
    · rfl
    · rw [g4Popcount_and_one, ← xorSum_stateAt h (not_not.1 hunknown) hw,
        xorSum_congr fun k _ => h.getLsbD_smallA hw k]
      cases xorSum 64 v.aNat.testBit <;> rfl

/-- The wide path. -/
lemma llgGmpSv4ReduceWide_eq (h : v.Canonical) (hw : 64 < v.width) (kind : ReduceKind) (invert : Bool) :
    llgGmpSv4ReduceWide v kind invert =
      reduceResult invert (bitCode (reduceBit kind v.width v.stateAt)) := by
  have hn : v.width ≤ 64 * g4Words v.width := by
    rw [g4Words]
    omega
  have hany : ∀ p : ℕ → Prop, ∀ [DecidablePred p],
      (List.range (g4Words v.width)).any (fun i => p i) = true ↔ ∃ j < g4Words v.width, p j := by
    intro p _
    simp
  cases kind with
  | and =>
    have hzero : (∃ j < g4Words v.width, ~~~v.a.getD j 0 &&& ~~~v.wordsB.getD j 0 &&&
        wordMask v.width (g4Words v.width) j ≠ 0) ↔ ∃ i < v.width, v.stateAt i = .zero := by
      simp only [stateAt_eq_zero_iff]
      refine exists_word_ne_zero hn fun j hj k hk => ?_
      rw [getLsbD_and, getLsbD_and, getLsbD_not, getLsbD_not,
        getLsbD_wordMask hj hk, getLsbD_getD_a v j hk, getLsbD_getD_wordsB v j hk, Bool.and_comm]
      simp [hk]
    simp only [llgGmpSv4ReduceWide, hany, hzero, reduceBit, h.isSome_b_wide hw, exists_unknown_iff h]
    by_cases hdecided : ∃ i < v.width, v.stateAt i = .zero
    · rw [if_pos hdecided, if_pos hdecided]
      cases invert <;> rfl
    · rw [if_neg hdecided, if_neg hdecided]
      split_ifs <;> rfl
  | or =>
    simp only [llgGmpSv4ReduceWide, hany, exists_word_one h, reduceBit, h.isSome_b_wide hw,
      exists_unknown_iff h]
    by_cases hdecided : ∃ i < v.width, v.stateAt i = .one
    · rw [if_pos hdecided, if_pos hdecided]
      cases invert <;> rfl
    · rw [if_neg hdecided, if_neg hdecided]
      split_ifs <;> rfl
  | xor =>
    simp only [llgGmpSv4ReduceWide, reduceBit, h.isSome_b_wide hw, exists_unknown_iff h]
    split_ifs with hunknown
    · cases invert <;> rfl
    · rw [parity_foldl, ← xorSum_stateAt h (not_not.1 hunknown) hn]
      simp only [← testBit_wordsNat]
      rw [← G4.aNat]
      cases xorSum (64 * g4Words v.width) v.aNat.testBit <;> rfl

lemma g4Reduce_yields (h : v.Canonical) (kind : ReduceKind) (invert : Bool) :
    Yields (g4Reduce v kind invert) 1 false fun _ =>
      if invert then bitNegOne (reduceBit kind v.width v.stateAt) else reduceBit kind v.width v.stateAt := by
  have heq : g4Reduce v kind invert = reduceResult invert (bitCode (reduceBit kind v.width v.stateAt)) := by
    by_cases hw : v.width > 64
    · rw [g4Reduce, if_pos hw, llgGmpSv4ReduceWide_eq h hw]
    · exact g4Reduce_narrow h (by omega) kind invert
  exact heq ▸ reduceResult_yields (reduceBit_ne_z _ _ _) invert

end Reductions

end Lapligence.Value
