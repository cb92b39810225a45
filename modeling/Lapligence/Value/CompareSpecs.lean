import Lapligence.Value.PredicateSpecs

/-!
# What the comparisons yield

Equality, case equality, the orders and the matches with wildcards.  Both paths compare extended operands, and
the lemmas on extended planes say what the tests of the words mean for the bits.
-/

namespace Lapligence.Value

open WordLists Constraints Elab Nat List
open BitVec (getLsbD_and getLsbD_not getLsbD_or getLsbD_xor toNat_eq)

variable {j k x : ℕ}

/-! ## Bits of extended operands -/

section Extended

variable {a b : G4} {w : ℕ} {s : Bool}

lemma extA_lt (v : G4) (w : ℕ) (s : Bool) : v.extA w s < 2 ^ w := extendNat_lt _ _ _ _

lemma extB_lt (v : G4) (w : ℕ) (s : Bool) : v.extB w s < 2 ^ w := extendNat_lt _ _ _ _

lemma differs_stateBit {a b a' b' : Bool} :
    (stateBit a b).Differs (stateBit a' b') ↔ ((a ^^ a') && !(b || b')) = true := by
  cases a <;> cases b <;> cases a' <;> cases b' <;> decide

/-- Two known bits that differ, in the planes. -/
lemma exists_differs_iff (ha : a.Canonical) (hb : b.Canonical) :
    (∃ i < w, (a.extBits s i).Differs (b.extBits s i)) ↔
      ∃ i < w, (((a.extA w s).testBit i ^^ (b.extA w s).testBit i) &&
        !((a.extB w s).testBit i || (b.extB w s).testBit i)) = true := by
  refine exists_congr fun i => and_congr_right fun hi => ?_
  rw [← stateBit_ext s ha hi, ← stateBit_ext s hb hi, differs_stateBit]

lemma exists_unknown_extBits (h : a.Canonical) (hw : a.width ≤ w) :
    (∃ i < w, (a.extBits s i).isUnknown = true) ↔ a.bNat ≠ 0 := by
  rw [ne_eq, ← extB_eq_zero_iff s h hw, ← ne_eq, ne_zero_iff_testBit (extB_lt a w s)]
  refine exists_congr fun i => and_congr_right fun hi => ?_
  rw [← stateBit_ext s h hi, isUnknown_stateBit]

lemma exists_either_unknown (ha : a.Canonical) (hb : b.Canonical) (haw : a.width ≤ w) (hbw : b.width ≤ w) :
    (∃ i < w, (a.extBits s i).isUnknown = true ∨
      (b.extBits s i).isUnknown = true) ↔ a.bNat ≠ 0 ∨ b.bNat ≠ 0 := by
  rw [← exists_unknown_extBits (s := s) ha haw, ← exists_unknown_extBits (s := s) hb hbw]
  simp only [and_or_left, exists_or]

/-- Two extended operands with the same bits have the same planes. -/
lemma forall_extBits_eq_iff (ha : a.Canonical) (hb : b.Canonical) :
    (∀ i < w, a.extBits s i = b.extBits s i) ↔
      a.extA w s = b.extA w s ∧ a.extB w s = b.extB w s := by
  rw [eq_iff_testBit (extA_lt a w s) (extA_lt b w s), eq_iff_testBit (extB_lt a w s) (extB_lt b w s),
    ← forall₂_and]
  refine forall₂_congr fun i hi => ?_
  rw [← stateBit_ext s ha hi, ← stateBit_ext s hb hi, stateBit_inj]

lemma xor_testBit_and_eq {y : ℕ} (hx : x < 2 ^ w) (hy : y < 2 ^ w) (i : ℕ) (p : Bool) :
    ((x.testBit i ^^ y.testBit i) && p) = (decide (i < w) && ((x.testBit i ^^ y.testBit i) && p)) := by
  rw [← testBit_xor]
  exact testBit_and_eq (xor_lt_two_pow hx hy) i p

/-! ### Words of extended operands -/

lemma getLsbD_extendA (h : a.Canonical) (ha : a.width ≤ 64) (hw : w ≤ 64) (k : ℕ) :
    (g4ExtendWord a.smallA a.width w s).getLsbD k = (a.extA w s).testBit k := by
  rw [← BitVec.testBit_toNat, toNat_g4ExtendWord_smallA s h ha hw]

lemma getLsbD_extendB (h : a.Canonical) (ha : a.width ≤ 64) (hw : w ≤ 64) (k : ℕ) :
    (g4ExtendWord a.smallB a.width w s).getLsbD k = (a.extB w s).testBit k := by
  rw [← BitVec.testBit_toNat, toNat_g4ExtendWord_smallB s h ha hw]

lemma getLsbD_spanA_word (h : a.Canonical) (hk : k < 64) (hi : 64 * j + k < w) :
    ((a.spanA s).word j).getLsbD k = (a.extA w s).testBit (64 * j + k) := by
  have hspan := getLsbD_spanA s h hi
  rwa [show (64 * j + k) / 64 = j by omega, show (64 * j + k) % 64 = k by omega] at hspan

lemma getLsbD_spanB_word (h : a.Canonical) (hk : k < 64) (hi : 64 * j + k < w) :
    ((a.spanB s).word j).getLsbD k = (a.extB w s).testBit (64 * j + k) := by
  have hspan := getLsbD_spanB s h hi
  rwa [show (64 * j + k) / 64 = j by omega, show (64 * j + k) % 64 = k by omega] at hspan

/-- A masked word of a number. -/
lemma getLsbD_maskedWord {word : BitVec 64} (hx : x < 2 ^ w) (hj : j < g4Words w) (hk : k < 64)
    (h : 64 * j + k < w → word.getLsbD k = x.testBit (64 * j + k)) :
    (word &&& wordMask w (g4Words w) j).getLsbD k = x.testBit (64 * j + k) := by
  rw [getLsbD_and, getLsbD_wordMask hj hk]
  by_cases hi : 64 * j + k < w
  · rw [h hi, decide_eq_true hi, Bool.and_true]
  · rw [decide_eq_false hi, Bool.and_false, testBit_beyond hx (Nat.not_lt.1 hi)]

lemma getLsbD_spanA_masked (h : a.Canonical) (hj : j < g4Words w) (hk : k < 64) :
    ((a.spanA s).word j &&& wordMask w (g4Words w) j).getLsbD k = (a.extA w s).testBit (64 * j + k) :=
  getLsbD_maskedWord (extA_lt a w s) hj hk (getLsbD_spanA_word h hk)

lemma getLsbD_spanB_masked (h : a.Canonical) (hj : j < g4Words w) (hk : k < 64) :
    ((a.spanB s).word j &&& wordMask w (g4Words w) j).getLsbD k = (a.extB w s).testBit (64 * j + k) :=
  getLsbD_maskedWord (extB_lt a w s) hj hk (getLsbD_spanB_word h hk)

end Extended

/-! ## The loop of the wide comparison -/

section Loop

variable (words : ℕ → CompareWords) (n : ℕ) (unknown : Bool) (c : Ordering)

lemma compareLoop_eq :
    compareLoop .eq words n unknown c =
      if ∃ j < n, ((words j).aa ^^^ (words j).ba) &&& ~~~((words j).ab ||| (words j).bb) ≠ 0 then none
      else some (unknown || decide (∃ j < n, (words j).ab ||| (words j).bb ≠ 0), c) := by
  induction n generalizing unknown with
  | zero => simp [compareLoop]
  | succ n ih =>
    simp only [compareLoop, exists_lt_succ_right]
    by_cases hlast : ((words n).aa ^^^ (words n).ba) &&& ~~~((words n).ab ||| (words n).bb) ≠ 0
    · rw [if_pos hlast, if_pos (.inr hlast)]
    · rw [if_neg hlast, ih]
      simp only [or_iff_left hlast, Bool.decide_or, Bool.or_assoc]
      rw [Bool.or_comm (decide (∃ j < n, _))]

lemma compareLoop_caseEq :
    compareLoop .caseEq words n unknown c =
      if ∃ j < n, (words j).aa ≠ (words j).ba ∨ (words j).ab ≠ (words j).bb then none
      else some (unknown, c) := by
  induction n with
  | zero => simp [compareLoop]
  | succ n ih =>
    simp only [compareLoop, exists_lt_succ_right]
    by_cases hlast : (words n).aa ≠ (words n).ba ∨ (words n).ab ≠ (words n).bb
    · rw [if_pos hlast, if_pos (.inr hlast)]
    · rw [if_neg hlast, ih]
      simp only [or_iff_left hlast]

/-- Two arrays of words differ if the numbers do. -/
lemma exists_word_ne_iff {words words' : ℕ → BitVec 64} {n y : ℕ} (hx : x < 2 ^ (64 * n))
    (hy : y < 2 ^ (64 * n)) (h : ∀ j < n, ∀ k < 64, (words j).getLsbD k = x.testBit (64 * j + k))
    (h' : ∀ j < n, ∀ k < 64, (words' j).getLsbD k = y.testBit (64 * j + k)) :
    (∃ j < n, words j ≠ words' j) ↔ x ≠ y := by
  constructor
  · rintro ⟨j, hj, hne⟩ rfl
    exact hne (BitVec.eq_of_getLsbD_eq fun k hk => (h j hj k hk).trans (h' j hj k hk).symm)
  · intro hne
    by_contra hall
    have hsame : (range n).map words = (range n).map words' := by
      refine map_congr_left fun j hj => ?_
      by_contra hj'
      exact hall ⟨j, mem_range.1 hj, hj'⟩
    exact hne (by rw [← prefixNat_eq hx h, prefixNat, hsame, ← prefixNat, prefixNat_eq hy h'])

lemma compareLoop_order {op : CompareOp} (heq : op ≠ .eq) (hcase : op ≠ .caseEq) :
    compareLoop op words n unknown c = some (unknown, if c = .eq then
      compare (prefixNat (fun j => (words j).aa) n) (prefixNat (fun j => (words j).ba) n) else c) := by
  induction n generalizing c with
  | zero =>
    rw [compareLoop]
    by_cases hc : c = .eq
    · rw [if_pos hc, hc]
      rfl
    · rw [if_neg hc]
  | succ n ih =>
    have hstep : compareLoop op words (n + 1) unknown c = compareLoop op words n unknown
        (if c = .eq ∧ (words n).aa ≠ (words n).ba then if (words n).aa < (words n).ba then .lt else .gt
          else c) := by
      cases op <;> first | rfl | contradiction
    rw [hstep, ih, compare_prefixNat_succ, ← ite_word_order]
    cases c with
    | eq => split_ifs <;> simp_all
    | lt => simp
    | gt => simp

end Loop

/-! ## Comparisons -/

lemma bitCode_equalityBit (mismatch unknown : Prop) [Decidable mismatch] [Decidable unknown] :
    bitCode (equalityBit mismatch unknown) = if mismatch then 0 else if unknown then 2 else 1 := by
  rw [equalityBit]
  split_ifs <;> rfl

lemma bitCode_ofBool (p : Prop) [Decidable p] : bitCode (Bit.ofBool (decide p)) = if p then 1 else 0 := by
  by_cases hp : p
  · rw [decide_eq_true hp, if_pos hp]
    rfl
  · rw [decide_eq_false hp, if_neg hp]
    rfl

section Compare

variable {a b : G4} (ha : a.Canonical) (hb : b.Canonical)

include ha hb

/-- Wide values of one width with the same planes have the same words. -/
lemma words_eq_iff (hw : 64 < a.width) (hwidth : a.width = b.width) :
    a.a = b.a ∧ a.b = b.b ↔ a.aNat = b.aNat ∧ a.bNat = b.bNat := by
  have hasome := ha.isSome_b_wide hw
  have hbsome := hb.isSome_b_wide (hwidth ▸ hw)
  constructor
  · rintro ⟨hA, hB⟩
    exact ⟨by rw [G4.aNat, hA, G4.aNat], by rw [G4.bNat, hB, G4.bNat]⟩
  rintro ⟨hA, hB⟩
  refine ⟨wordsNat_injective (by rw [ha.holds_a.length, hb.holds_a.length, hwidth]) hA, ?_⟩
  cases hab : a.b with
  | none =>
    cases hbb : b.b with
    | none => rfl
    | some =>
      rw [hab, hB] at hasome
      rw [hbb] at hbsome
      exact absurd (hasome.2 (hbsome.1 rfl)) (by simp)
  | some x =>
    cases hbb : b.b with
    | none =>
      rw [hab, hB] at hasome
      rw [hbb] at hbsome
      exact absurd (hbsome.2 (hasome.1 rfl)) (by simp)
    | some y =>
      congr 1
      have hx := ha.holds_b x hab
      have hy := hb.holds_b y hbb
      exact wordsNat_injective (by rw [hx.length, hy.length, hwidth]) (by rw [hx.value, hy.value, hB])

/-- The planes of two operands of the same width. -/
lemma ext_eq_iff_of_width (hwidth : a.width = b.width) (s : Bool) :
    a.extA (g4Maxw a b) s = b.extA (g4Maxw a b) s ∧ a.extB (g4Maxw a b) s = b.extB (g4Maxw a b) s ↔
      a.aNat = b.aNat ∧ a.bNat = b.bNat := by
  have hw : g4Maxw a b = b.width := by rw [g4Maxw_eq, hwidth, max_self]
  have hself : ∀ {v : G4}, v.Canonical → v.width = b.width → v.extB (g4Maxw a b) s = v.bNat := by
    intro v hv hvw
    rw [hw, ← hvw]
    exact extendNat_self s hv.bNat_lt
  rw [hself ha hwidth, hself hb rfl, extA_of_width ha (hwidth.trans hw.symm), extA_of_width hb hw.symm]

omit ha hb in
lemma lt_words {w : ℕ} (hx : x < 2 ^ w) : x < 2 ^ (64 * g4Words w) :=
  hx.trans_le (Nat.pow_le_pow_right (by decide) (by rw [g4Words]; omega))

/-- Case equality compares the extended planes. -/
lemma g4Compare_caseEq :
    g4Compare a b .caseEq = g4Predicate (if
      a.extA (g4Maxw a b) (a.isSigned && b.isSigned) = b.extA (g4Maxw a b) (a.isSigned && b.isSigned) ∧
      a.extB (g4Maxw a b) (a.isSigned && b.isSigned) = b.extB (g4Maxw a b) (a.isSigned && b.isSigned)
      then 1 else 0) := by
  have hwidths := g4Maxw_eq a b
  generalize hs : (a.isSigned && b.isSigned) = s
  by_cases hw : g4Maxw a b > 64
  · simp only [g4Compare, if_pos hw, llgGmpSv4CompareWide, hs]
    by_cases hwidth : a.width = b.width
    · have hiff := words_eq_iff ha hb (by omega) hwidth
      simp only [hwidth, ext_eq_iff_of_width ha hb hwidth, ← hiff]
      by_cases hA : a.a = b.a <;> simp [hA]
    · have hA := exists_word_ne_iff (lt_words (extA_lt a (g4Maxw a b) s)) (lt_words (extA_lt b _ s))
        (fun j hj k hk => getLsbD_spanA_masked ha hj hk) fun j hj k hk => getLsbD_spanA_masked hb hj hk
      have hB := exists_word_ne_iff (lt_words (extB_lt a (g4Maxw a b) s)) (lt_words (extB_lt b _ s))
        (fun j hj k hk => getLsbD_spanB_masked ha hj hk) fun j hj k hk => getLsbD_spanB_masked hb hj hk
      simp only [hwidth, compareLoop_caseEq, and_or_left, exists_or, hA, hB]
      by_cases hsame : a.extA (g4Maxw a b) s = b.extA (g4Maxw a b) s <;>
        by_cases hsame' : a.extB (g4Maxw a b) s = b.extB (g4Maxw a b) s <;> simp [hsame, hsame']
  · rw [g4Compare, if_neg hw]
    have haw : a.width ≤ 64 := by omega
    have hbw : b.width ≤ 64 := by omega
    have hw64 : g4Maxw a b ≤ 64 := by omega
    simp only [toNat_eq, toNat_g4ExtendWord_smallA _ ha haw hw64, toNat_g4ExtendWord_smallA _ hb hbw hw64,
      toNat_g4ExtendWord_smallB _ ha haw hw64, toNat_g4ExtendWord_smallB _ hb hbw hw64, if_true,
      hs]

lemma g4Compare_caseEq_yields :
    Yields (g4Compare a b .caseEq) 1 false fun _ => Bit.ofBool (decide (∀ i < g4Maxw a b,
      a.extBits (a.isSigned && b.isSigned) i =
        b.extBits (a.isSigned && b.isSigned) i)) := by
  refine yields_of_code ?_
  rw [g4Compare_caseEq ha hb, bitCode_ofBool]
  simp only [← forall_extBits_eq_iff ha hb]

/-- The test of the narrow paths for unknown bits. -/
lemma extendB_or_ne_zero (s : Bool) (hw : g4Maxw a b ≤ 64) :
    g4ExtendWord a.smallB a.width (g4Maxw a b) s ||| g4ExtendWord b.smallB b.width (g4Maxw a b) s ≠ 0 ↔
      a.bNat ≠ 0 ∨ b.bNat ≠ 0 := by
  have hwidths := g4Maxw_eq a b
  rw [or_ne_zero_iff, toNat_g4ExtendWord_smallB s ha (by omega) hw,
    toNat_g4ExtendWord_smallB s hb (by omega) hw, ne_eq, ne_eq, extB_eq_zero_iff s ha (by omega),
    extB_eq_zero_iff s hb (by omega)]

/-- Equality, from the bits of the extended operands. -/
lemma g4Compare_eq_yields :
    Yields (g4Compare a b .eq) 1 false fun _ => equalityBit
      (∃ i < g4Maxw a b, (a.extBits (a.isSigned && b.isSigned) i).Differs
        (b.extBits (a.isSigned && b.isSigned) i))
      (∃ i < g4Maxw a b, (a.extBits (a.isSigned && b.isSigned) i).isUnknown = true ∨
        (b.extBits (a.isSigned && b.isSigned) i).isUnknown = true) := by
  have hwidths := g4Maxw_eq a b
  refine yields_of_code ?_
  simp only [bitCode_equalityBit, exists_either_unknown ha hb (by omega : a.width ≤ g4Maxw a b)
    (by omega : b.width ≤ g4Maxw a b)]
  generalize hs : (a.isSigned && b.isSigned) = s
  have hext := fun hwidth => ext_eq_iff_of_width ha hb hwidth s
  by_cases hw : g4Maxw a b > 64
  · simp only [g4Compare, if_pos hw, llgGmpSv4CompareWide, hs, compareLoop_eq, ha.isUnknown_iff,
      hb.isUnknown_iff, reduceCtorEq]
    generalize g4Maxw a b = w at *
    have hdiff : (∃ j < g4Words w,
        (((a.spanA s).word j &&& wordMask w (g4Words w) j) ^^^
          ((b.spanA s).word j &&& wordMask w (g4Words w) j)) &&&
        ~~~(((a.spanB s).word j &&& wordMask w (g4Words w) j) |||
          ((b.spanB s).word j &&& wordMask w (g4Words w) j)) ≠ 0) ↔
        ∃ i < w, (a.extBits s i).Differs (b.extBits s i) := by
      rw [exists_differs_iff ha hb]
      refine exists_word_ne_zero (by rw [g4Words]; omega) fun j hj k hk => ?_
      rw [getLsbD_and, getLsbD_xor, getLsbD_not, getLsbD_or,
        getLsbD_spanA_masked ha hj hk, getLsbD_spanA_masked hb hj hk, getLsbD_spanB_masked ha hj hk,
        getLsbD_spanB_masked hb hj hk, decide_eq_true hk, Bool.true_and]
      exact xor_testBit_and_eq (extA_lt a _ s) (extA_lt b _ s) _ _
    have hunknown : (∃ j < g4Words w, ((a.spanB s).word j &&& wordMask w (g4Words w) j) |||
        ((b.spanB s).word j &&& wordMask w (g4Words w) j) ≠ 0) ↔ a.bNat ≠ 0 ∨ b.bNat ≠ 0 := by
      have hor := or_lt_two_pow (extB_lt a w s) (extB_lt b w s)
      have haw : a.width ≤ w := by omega
      have hbw : b.width ≤ w := by omega
      rw [← not_and_or, ← extB_eq_zero_iff s ha haw, ← extB_eq_zero_iff s hb hbw, ← or_eq_zero_iff,
        ← ne_eq, ne_zero_iff_testBit hor]
      refine exists_word_ne_zero (by rw [g4Words]; omega) fun j hj k hk => ?_
      have hcut := testBit_and_eq hor (64 * j + k) true
      rw [Bool.and_true, testBit_or] at hcut
      rw [getLsbD_or, getLsbD_spanB_masked ha hj hk, getLsbD_spanB_masked hb hj hk, testBit_or]
      exact hcut
    simp only [hdiff, hunknown]
    by_cases hshort : a.width = b.width ∧ a.bNat = 0 ∧ b.bNat = 0
    · obtain ⟨hwidth, hazero, hbzero⟩ := hshort
      have hiff := words_eq_iff ha hb (by omega) hwidth
      have hall := (forall_extBits_eq_iff (s := s) ha hb).trans (hext hwidth)
      have hsame : (∃ i < w, (a.extBits s i).Differs (b.extBits s i)) ↔ ¬(a.a = b.a ∧ a.b = b.b) := by
        rw [hiff, ← hall, not_forall]
        refine exists_congr fun i => ?_
        rw [Classical.not_imp]
        refine and_congr_right fun hi => ?_
        rw [← stateBit_ext s ha hi, ← stateBit_ext s hb hi, G4.extB, hazero, G4.extB, hbzero, extendNat_zero,
          extendNat_zero, zero_testBit]
        exact ⟨fun h => h.2.2, fun h => ⟨isUnknown_stateBit _ _, isUnknown_stateBit _ _, h⟩⟩
      rw [if_neg (by simp), if_pos (by simp [hwidth, hazero, hbzero])]
      simp only [hsame]
      by_cases hA : a.a = b.a <;> by_cases hB : a.b = b.b <;> simp [hA, hB, hazero, hbzero]
    · by_cases hd : ∃ i < w, (a.extBits s i).Differs (b.extBits s i)
      · simp [hd, hshort]
      · simp [hd, hshort]
  · have haw : a.width ≤ 64 := by omega
    have hbw : b.width ≤ 64 := by omega
    have hw64 : g4Maxw a b ≤ 64 := by omega
    have hunknown := extendB_or_ne_zero ha hb s hw64
    simp only [g4Compare, if_neg hw, hs, hunknown, reduceCtorEq, if_false, if_true]
    generalize g4Maxw a b = w at *
    have hdiff : (g4ExtendWord a.smallA a.width w s ^^^
          g4ExtendWord b.smallA b.width w s) &&&
        ~~~(g4ExtendWord a.smallB a.width w s ||| g4ExtendWord b.smallB b.width w s) ≠ 0 ↔
        ∃ i < w, (a.extBits s i).Differs (b.extBits s i) := by
      rw [exists_differs_iff ha hb]
      refine word_ne_zero hw64 fun k hk => ?_
      rw [getLsbD_and, getLsbD_xor, getLsbD_not, getLsbD_or,
        getLsbD_extendA ha haw hw64, getLsbD_extendA hb hbw hw64, getLsbD_extendB ha haw hw64,
        getLsbD_extendB hb hbw hw64, decide_eq_true hk, Bool.true_and]
      exact xor_testBit_and_eq (extA_lt a _ s) (extA_lt b _ s) _ _
    simp only [hdiff]

/-- The order of two known operands, in the planes. -/
lemma orderBits_known {w : ℕ} (s : Bool) (hazero : a.bNat = 0) (hbzero : b.bNat = 0) :
    orderBits w s (a.extBits s) (b.extBits s) =
      if s ∧ w > 0 ∧ (a.extA w s).testBit (w - 1) ≠ (b.extA w s).testBit (w - 1) then
        if (a.extA w s).testBit (w - 1) = true then .lt else .gt
      else compare (a.extA w s) (b.extA w s) := by
  rw [orderBits, num_extBits s ha hazero, num_extBits s hb hbzero]
  rcases Nat.eq_zero_or_pos w with rfl | hpos
  · simp
  have hlast : w - 1 < w := by omega
  rw [extBits_known s ha hazero hlast, extBits_known s hb hbzero hlast]
  cases (a.extA w s).testBit (w - 1) <;> cases (b.extA w s).testBit (w - 1) <;> simp [Bit.ofBool]

omit ha hb in
/-- The top bit of a word of `w` bits. -/
lemma toNat_ushiftRight_top {x : BitVec 64} {w : ℕ} (hw : 0 < w) (hx : x.toNat < 2 ^ w) :
    (x >>> (w - 1)).toNat = (x.toNat.testBit (w - 1)).toNat := by
  have hlt : x.toNat / 2 ^ (w - 1) < 2 := by
    rw [Nat.div_lt_iff_lt_mul (Nat.two_pow_pos _), ← Nat.pow_succ', succ_eq_add_one, Nat.sub_add_cancel hw]
    exact hx
  rw [BitVec.toNat_ushiftRight, shiftRight_eq_div_pow, testBit_eq_decide_div_mod_eq]
  interval_cases x.toNat / 2 ^ (w - 1) <;> rfl

omit hb in
/-- The fill of a signed operand is its top bit after extension. -/
lemma fill_spanA {w : ℕ} (hpos : 0 < w) (hw : a.width ≤ w) :
    (a.spanA true).fill =
      if (a.extA w true).testBit (w - 1) = true then BitVec.allOnes 64 else 0#64 := by
  have htop : (a.extA w true).testBit (w - 1) =
      (true && decide (a.width ≠ 0) && (wordsNat a.a).testBit (a.width - 1)) := by
    rw [G4.extA, testBit_extendNat true ha.aNat_lt (by omega : w - 1 < w)]
    split_ifs with hlt
    · obtain rfl : a.width = w := by omega
      rw [decide_eq_true (by omega), Bool.true_and, Bool.true_and]
      rfl
    · rfl
  apply BitVec.eq_of_getLsbD_eq
  intro k hk
  rw [G4.spanA, getLsbD_fill true a.a a.width hk, ← htop]
  split_ifs with hbit
  · rw [hbit, BitVec.getLsbD_allOnes, decide_eq_true hk]
  · rw [BitVec.getLsbD_zero, Bool.eq_false_iff.2 hbit]

/-- The orders, for known operands. -/
lemma g4Compare_order_yields {op : CompareOp} (heq : op ≠ .eq) (hcase : op ≠ .caseEq) :
    Yields (g4Compare a b op) 1 false fun _ => if a.bNat ≠ 0 ∨ b.bNat ≠ 0 then .x else Bit.ofBool (op.holds
      (orderBits (g4Maxw a b) (a.isSigned && b.isSigned)
        (a.extBits (a.isSigned && b.isSigned))
        (b.extBits (a.isSigned && b.isSigned)))) := by
  have hcode : ∀ t, bitCode (Bit.ofBool t) = if t then 1 else 0 := by decide
  refine yields_of_code ?_
  rw [apply_ite bitCode, hcode, show bitCode .x = 2 from rfl]
  have hwidths := g4Maxw_eq a b
  generalize hs : (a.isSigned && b.isSigned) = s
  have haw : a.width ≤ g4Maxw a b := by omega
  have hbw : b.width ≤ g4Maxw a b := by omega
  by_cases hunknown : a.bNat ≠ 0 ∨ b.bNat ≠ 0
  · rw [if_pos hunknown, g4Compare]
    by_cases hw : g4Maxw a b > 64
    · rw [if_pos hw, llgGmpSv4CompareWide,
        if_pos ⟨heq, hcase, by rwa [ha.isUnknown_iff, hb.isUnknown_iff]⟩]
    · have hor := extendB_or_ne_zero ha hb s (by omega)
      simp only [if_neg hw, hs, heq, hcase, if_false, if_pos (hor.2 hunknown)]
  rw [if_neg hunknown]
  rw [not_or, not_not, not_not] at hunknown
  obtain ⟨hazero, hbzero⟩ := hunknown
  rw [orderBits_known ha hb s hazero hbzero]
  by_cases hw : g4Maxw a b > 64
  · simp only [g4Compare, if_pos hw, llgGmpSv4CompareWide, hs, ha.isUnknown_iff, hb.isUnknown_iff, hazero, hbzero,
      heq, hcase]
    generalize g4Maxw a b = w at *
    have hloop := compareLoop_order (fun i =>
        (⟨(a.spanA s).word i &&& wordMask w (g4Words w) i,
          (a.spanB s).word i &&& wordMask w (g4Words w) i,
          (b.spanA s).word i &&& wordMask w (g4Words w) i,
          (b.spanB s).word i &&& wordMask w (g4Words w) i⟩ : CompareWords))
      (g4Words w) false .eq heq hcase
    rw [if_pos rfl, prefixNat_eq (lt_words (extA_lt a _ s)) fun j hj k hk => getLsbD_spanA_masked ha hj hk,
      prefixNat_eq (lt_words (extA_lt b _ s)) fun j hj k hk => getLsbD_spanA_masked hb hj hk] at hloop
    simp only [hloop]
    rw [if_neg (by simp), if_neg (by simp), if_neg (by simp)]
    cases s with
    | false => simp
    | true =>
      rw [fill_spanA ha (w := w) (by omega) haw, fill_spanA hb (w := w) (by omega) hbw]
      have hpos : w > 0 := by omega
      cases (a.extA w true).testBit (w - 1) <;>
        cases (b.extA w true).testBit (w - 1) <;> simp [hpos]
  · have hor := extendB_or_ne_zero ha hb s (by omega)
    simp only [g4Compare, if_neg hw, hs, heq, hcase, if_false, if_neg (mt hor.1 (by simp [hazero, hbzero]))]
    generalize g4Maxw a b = w at *
    have hxa := toNat_g4ExtendWord_smallA s ha (w := w) (by omega) (by omega)
    have hya := toNat_g4ExtendWord_smallA s hb (w := w) (by omega) (by omega)
    have hxlt := extA_lt a w s
    have hylt := extA_lt b w s
    generalize g4ExtendWord a.smallA a.width w s = xa at hxa ⊢
    generalize g4ExtendWord b.smallA b.width w s = ya at hya ⊢
    rw [← hxa] at hxlt ⊢
    rw [← hya] at hylt ⊢
    have hcompare : (if xa < ya then Ordering.lt else if xa > ya then .gt else .eq) =
        compare xa.toNat ya.toNat := by
      rw [compare_eq_ite_lt]
      rfl
    rw [hcompare]
    rcases Nat.eq_zero_or_pos w with hzero | hpos
    · simp [hzero]
    have hxtop := toNat_ushiftRight_top hpos hxlt
    have hytop := toNat_ushiftRight_top hpos hylt
    simp only [ne_eq, toNat_eq, hxtop, hytop, Nat.pos_iff_ne_zero.1 hpos, gt_iff_lt, hpos]
    cases xa.toNat.testBit (w - 1) <;> cases ya.toNat.testBit (w - 1) <;> simp

end Compare

/-! ## Wildcards -/

section Wild

variable {a b : G4}

lemma matchLoop_wild (words : ℕ → CompareWords) (mask : ℕ → BitVec 64) (positions : List ℕ) (unknown : Bool) :
    matchLoop .wild words mask positions unknown =
      if ∃ j ∈ positions,
        ((words j).aa ^^^ (words j).ba) &&& ~~~(words j).ab &&& (~~~(words j).bb &&& mask j) ≠ 0 then none
      else some (unknown || decide (∃ j ∈ positions, (words j).ab &&& (~~~(words j).bb &&& mask j) ≠ 0)) := by
  induction positions generalizing unknown with
  | nil => simp [matchLoop]
  | cons j positions ih =>
    simp only [matchLoop, exists_mem_cons_iff]
    by_cases hfirst : ((words j).aa ^^^ (words j).ba) &&& ~~~(words j).ab &&& (~~~(words j).bb &&& mask j) ≠ 0
    · rw [if_pos hfirst, if_pos (.inl hfirst)]
    · rw [if_neg hfirst, ih]
      simp only [or_iff_right hfirst, Bool.decide_or, Bool.or_assoc]

/-- The comparison with wildcards in the right operand. -/
lemma g4Match_wild_yields (ha : a.Canonical) (hb : b.Canonical) :
    Yields (g4Match a b .wild) 1 false fun _ => equalityBit
      (∃ i < g4Maxw a b, (a.extBits (a.isSigned && b.isSigned) i).Differs
        (b.extBits (a.isSigned && b.isSigned) i))
      (∃ i < g4Maxw a b, (a.extBits (a.isSigned && b.isSigned) i).isUnknown = true ∧
        (b.extBits (a.isSigned && b.isSigned) i).isUnknown = false) := by
  refine yields_of_code ?_
  rw [bitCode_equalityBit]
  have hwidths := g4Maxw_eq a b
  have hsign : decide (a.isSigned = true ∧ b.isSigned = true) = (a.isSigned && b.isSigned) := by
    cases a.isSigned <;> cases b.isSigned <;> rfl
  simp only [g4Match, llgGmpSv4MatchWide, true_and, hsign]
  generalize (a.isSigned && b.isSigned) = s
  generalize g4Maxw a b = w at *
  have hunknown : (∃ i < w, (a.extBits s i).isUnknown = true ∧
      (b.extBits s i).isUnknown = false) ↔
      ∃ i < w, ((a.extB w s).testBit i && !(b.extB w s).testBit i) = true := by
    refine exists_congr fun i => and_congr_right fun hi => ?_
    rw [← stateBit_ext s ha hi, ← stateBit_ext s hb hi, isUnknown_stateBit, isUnknown_stateBit,
      Bool.and_eq_true, Bool.not_eq_true']
  simp only [hunknown]
  by_cases hw : w > 64
  · have hn : w ≤ 64 * g4Words w := by
      rw [g4Words]
      omega
    have hd : (∃ j ∈ range (g4Words w),
        ((a.spanA s).word j ^^^ (b.spanA s).word j) &&& ~~~(a.spanB s).word j &&&
          (~~~(b.spanB s).word j &&& wordMask w (g4Words w) j) ≠ 0) ↔
        ∃ i < w, (a.extBits s i).Differs (b.extBits s i) := by
      simp only [mem_range, exists_differs_iff ha hb, Bool.not_or, ← Bool.and_assoc]
      refine exists_word_ne_zero hn fun j hj k hk => ?_
      rw [getLsbD_and, getLsbD_and, getLsbD_xor, getLsbD_not, getLsbD_and,
        getLsbD_not, getLsbD_wordMask hj hk]
      by_cases hi : 64 * j + k < w
      · rw [getLsbD_spanA_word ha hk hi, getLsbD_spanB_word ha hk hi, getLsbD_spanA_word hb hk hi,
          getLsbD_spanB_word hb hk hi]
        simp [hi, hk]
      · simp [hi]
    have hu : (∃ j ∈ range (g4Words w), (a.spanB s).word j &&&
          (~~~(b.spanB s).word j &&& wordMask w (g4Words w) j) ≠ 0) ↔
        ∃ i < w,
          ((a.extB w s).testBit i && !(b.extB w s).testBit i) = true := by
      simp only [mem_range]
      refine exists_word_ne_zero hn fun j hj k hk => ?_
      rw [getLsbD_and, getLsbD_and, getLsbD_not, getLsbD_wordMask hj hk]
      by_cases hi : 64 * j + k < w
      · rw [getLsbD_spanB_word ha hk hi, getLsbD_spanB_word hb hk hi]
        simp [hi, hk]
      · simp [hi]
    rw [if_pos hw, matchLoop_wild]
    simp only [hd, hu, Bool.false_or]
    split_ifs with hdiffers hleft
    · rfl
    · rw [decide_eq_true hleft]
      rfl
    · rw [decide_eq_false hleft]
      rfl
  · have hw64 : w ≤ 64 := Nat.not_lt.1 hw
    have haw : a.width ≤ 64 := (le_max_left _ _).trans (hwidths ▸ hw64)
    have hbw : b.width ≤ 64 := (le_max_right _ _).trans (hwidths ▸ hw64)
    rw [if_neg hw]
    have hd : (g4ExtendWord a.smallA a.width w s ^^^ g4ExtendWord b.smallA b.width w s) &&&
        ~~~g4ExtendWord a.smallB a.width w s &&&
        (~~~g4ExtendWord b.smallB b.width w s &&& g4Mask w) ≠ 0 ↔
        ∃ i < w, (a.extBits s i).Differs (b.extBits s i) := by
      simp only [exists_differs_iff ha hb, Bool.not_or, ← Bool.and_assoc]
      refine word_ne_zero hw64 fun k hk => ?_
      rw [getLsbD_and, getLsbD_and, getLsbD_xor, getLsbD_not, getLsbD_and,
        getLsbD_not, getLsbD_g4Mask, getLsbD_extendA ha haw hw64, getLsbD_extendA hb hbw hw64,
        getLsbD_extendB ha haw hw64, getLsbD_extendB hb hbw hw64]
      by_cases hi : k < w <;> simp [hi, hk]
    have hu : g4ExtendWord a.smallB a.width w s &&&
        (~~~g4ExtendWord b.smallB b.width w s &&& g4Mask w) ≠ 0 ↔
        ∃ i < w,
          ((a.extB w s).testBit i && !(b.extB w s).testBit i) = true := by
      refine word_ne_zero hw64 fun k hk => ?_
      rw [getLsbD_and, getLsbD_and, getLsbD_not, getLsbD_g4Mask,
        getLsbD_extendB ha haw hw64, getLsbD_extendB hb hbw hw64]
      by_cases hi : k < w <;> simp [hi, hk]
    simp only [hd, hu]
    split_ifs <;> rfl

end Wild

end Lapligence.Value
