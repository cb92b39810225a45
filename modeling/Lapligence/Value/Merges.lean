import Lapligence.Opt.AggregateMux
import Lapligence.Value.AssemblySpecs
import Lapligence.Value.SelectionSpecs

/-!
# Merges of arrays and records

The merges that the runtime does for a conditional expression with an unknown condition
(`rt/value_gmp/assembly.c`, `rt/value_gmp/selection_inline.h`), against the merge of leaves of
`Opt/AggregateMux` and the folding of constants there.

`Filled` says that a step has written one interval of a value and nothing else.  The loops over leaves, elements
and words fill neighbouring intervals, so one rule (`Filled.foldl`) covers the wide merges.  The narrow merge
of arrays collects its elements in one word.  `merges_agree` compares the runtime with the folding.
-/

namespace Lapligence.Value

open Constraints Elab Elab.Value Opt WordLists Nat List
open BitVec (eq_of_getLsbD_eq getLsbD_and getLsbD_not getLsbD_or getLsbD_xor getLsbD_zero)

/-! ## Comparing intervals -/

section Compare

variable {a b : G4}

lemma stateAt_known_iff {i : ℕ} :
    (a.stateAt i = b.stateAt i ∧ (a.stateAt i).isUnknown = false) ↔
      a.bNat.testBit i = false ∧ b.bNat.testBit i = false ∧ a.aNat.testBit i = b.aNat.testBit i := by
  rw [G4.stateAt, G4.stateAt, stateBit_inj, isUnknown_stateBit]
  constructor
  · rintro ⟨⟨ha, hb⟩, hknown⟩
    exact ⟨hknown, hb ▸ hknown, ha⟩
  · rintro ⟨hleft, hright, ha⟩
    exact ⟨⟨ha, hleft.trans hright.symm⟩, hleft⟩

lemma g4RangeWord_eq_iff {p q : Words} {bit take : ℕ} (htake : take ≤ 64) :
    g4RangeWord p bit take = g4RangeWord q bit take ↔
      ∀ k < take, (wordsNat p).testBit (bit + k) = (wordsNat q).testBit (bit + k) := by
  constructor
  · intro h k hk
    have hbit := congrArg (·.getLsbD k) h
    simpa only [getLsbD_g4RangeWord _ _ htake, decide_eq_true hk, Bool.true_and] using hbit
  · intro h
    refine eq_of_getLsbD_eq fun k _ => ?_
    rw [getLsbD_g4RangeWord _ _ htake, getLsbD_g4RangeWord _ _ htake]
    by_cases hk : k < take
    · rw [h k hk]
    · rw [decide_eq_false hk, Bool.false_and, Bool.false_and]

lemma g4RangeWord_eq_zero_iff {p : Words} {bit take : ℕ} (htake : take ≤ 64) :
    g4RangeWord p bit take = 0 ↔ ∀ k < take, (wordsNat p).testBit (bit + k) = false := by
  have hzero : g4RangeWord [] bit take = 0 := by
    refine eq_of_getLsbD_eq fun k _ => ?_
    rw [getLsbD_g4RangeWord _ _ htake, wordsNat_nil, zero_testBit, Bool.and_false]
    exact BitVec.getLsbD_zero.symm
  rw [← hzero, g4RangeWord_eq_iff htake]
  simp only [wordsNat_nil, zero_testBit]

lemma knownEqual_add {f g : ℕ → Bit} {low m n : ℕ} :
    KnownEqual f g low (m + n) ↔ KnownEqual f g low m ∧ KnownEqual f g (low + m) n := by
  constructor
  · intro h
    refine ⟨fun j hj => h j (by omega), fun j hj => ?_⟩
    have := h (m + j) (by omega)
    rwa [← add_assoc] at this
  · rintro ⟨hlow, hhigh⟩ j hj
    rcases lt_or_ge j m with hm | hm
    · exact hlow j hm
    · have := hhigh (j - m) (by omega)
      rwa [show low + m + (j - m) = low + j by omega] at this

/-- The loop over the words of an interval. -/
lemma equalRange_iff {fuel bit count : ℕ} (hfuel : count ≤ fuel) :
    equalRange a b fuel bit (bit + count) = true ↔ KnownEqual a.stateAt b.stateAt bit count := by
  induction fuel generalizing bit count with
  | zero =>
    obtain rfl : count = 0 := by omega
    exact ⟨fun _ _ hj => absurd hj (not_lt_zero _), fun _ => rfl⟩
  | succ fuel ih =>
    rw [equalRange]
    by_cases hcount : count = 0
    · rw [if_neg (by omega), hcount]
      exact ⟨fun _ _ hj => absurd hj (not_lt_zero _), fun _ => rfl⟩
    rw [if_pos (by omega), Nat.add_sub_cancel_left]
    dsimp only
    generalize htake : (if count > 64 then 64 else count) = take
    have hle : take ≤ 64 ∧ take ≤ count ∧ 0 < take := by
      rw [← htake]
      split_ifs <;> omega
    obtain ⟨rest, rfl⟩ := Nat.exists_eq_add_of_le hle.2.1
    have hword : (g4RangeWord a.wordsB bit take = 0 ∧ g4RangeWord b.wordsB bit take = 0 ∧
        g4RangeWord a.a bit take = g4RangeWord b.a bit take) ↔ KnownEqual a.stateAt b.stateAt bit take := by
      rw [g4RangeWord_eq_zero_iff hle.1, g4RangeWord_eq_zero_iff hle.1, g4RangeWord_eq_iff hle.1,
        ← bNat_eq_wordsNat, ← bNat_eq_wordsNat, KnownEqual]
      simp only [stateAt_known_iff]
      exact ⟨fun h j hj => ⟨h.1 j hj, h.2.1 j hj, h.2.2 j hj⟩,
        fun h => ⟨fun j hj => (h j hj).1, fun j hj => (h j hj).2.1, fun j hj => (h j hj).2.2⟩⟩
    rw [knownEqual_add, ← hword, ← add_assoc, ← ih (by omega)]
    split_ifs with hdifferent
    · refine ⟨fun h => h.elim, fun h => ?_⟩
      obtain ⟨⟨hleft, hright, hsame⟩, -⟩ := h
      exact absurd hdifferent (by simp only [hleft, hright, hsame, ne_eq, not_true_eq_false, or_self,
        not_false_eq_true])
    · simp only [not_or, not_not] at hdifferent
      exact ⟨fun h => ⟨hdifferent, h⟩, fun h => h.2⟩

end Compare

/-! ## Filling intervals -/

/-- A value after the bits of an interval have been written. -/
structure Filled (w : ℕ) (v out : G4) (low count : ℕ) (f : ℕ → Bit) : Prop where
  shaped : out.Shaped w
  isSigned : out.isSigned = v.isSigned
  stateAt : ∀ i, out.stateAt i = if low ≤ i ∧ i < low + count then f i else v.stateAt i

namespace Filled

variable {w : ℕ} {v u out : G4} {low m n : ℕ} {f g : ℕ → Bit}

lemma refl (h : v.Shaped w) (low : ℕ) (f : ℕ → Bit) : Filled w v v low 0 f :=
  ⟨h, rfl, fun i => (if_neg (by omega)).symm⟩

lemma congr (h : Filled w v out low n f) (hfg : ∀ i, low ≤ i → i < low + n → f i = g i) :
    Filled w v out low n g := by
  refine ⟨h.shaped, h.isSigned, fun i => ?_⟩
  rw [h.stateAt]
  split_ifs with hi
  · exact hfg i hi.1 hi.2
  · rfl

/-- Intervals that follow each other. -/
lemma append (h : Filled w v u low m f) (h' : Filled w u out (low + m) n f) : Filled w v out low (m + n) f := by
  refine ⟨h'.shaped, h'.isSigned.trans h.isSigned, fun i => ?_⟩
  rw [h'.stateAt, h.stateAt]
  by_cases hhigh : low + m ≤ i ∧ i < low + m + n
  · rw [if_pos hhigh, if_pos (by omega)]
  · rw [if_neg hhigh]
    by_cases hlow : low ≤ i ∧ i < low + m
    · rw [if_pos hlow, if_pos (by omega)]
    · rw [if_neg hlow, if_neg (by omega)]

/-- A loop whose steps fill one interval after another. -/
lemma foldl {step : G4 → ℕ → G4} {stride : ℕ} {f : ℕ → Bit} (h : v.Shaped w) (count : ℕ)
    (hstep : ∀ u k, u.Shaped w → k < count → Filled w u (step u k) (k * stride) stride f) :
    Filled w v ((range count).foldl step v) 0 (count * stride) f := by
  induction count with
  | zero => rw [zero_mul]; exact refl h 0 f
  | succ count ih =>
    have hbefore := ih fun u k hu hk => hstep u k hu (by omega)
    rw [range_succ, foldl_append, succ_mul]
    refine hbefore.append ?_
    rw [zero_add]
    exact hstep _ count hbefore.shaped (lt_succ_self count)

/-- A value all of whose bits have been written. -/
lemma yields (h : Filled w v out 0 n f) (hw : w ≤ n) : Yields (llgGmpSv4Finish out) w v.isSigned f := by
  have hfinish := h.shaped.yields_finish
  rw [h.isSigned] at hfinish
  refine hfinish.congr fun i hi => ?_
  rw [h.stateAt, if_pos (by omega)]

lemma copyBits (h : v.Shaped w) {dstBit count : ℕ} (hfits : dstBit + count ≤ w) (src : G4)
    (srcBit : ℕ) :
    Filled w v (g4CopyBits v dstBit src srcBit count) dstBit count fun i => src.stateAt (srcBit + (i - dstBit)) :=
  ⟨h.copyBits dstBit src srcBit (by omega), isSigned_g4CopyBits .., stateAt_g4CopyBits h hfits src srcBit⟩

end Filled

/-! ## Records -/

section Records

variable {a b default starts : G4} {w : ℕ} {leaf : Leaf} {leaves : List Leaf}

/-- The search for the next start of a leaf. -/
lemma leafEnd_eq {words : Words} {period stop fuel last : ℕ} (hfuel : stop - last ≤ fuel) (hlast : last ≤ stop)
    (hperiod : stop ≤ period) (hstop : stop = period ∨ (wordsNat words).testBit stop = true)
    (hclear : ∀ i, last ≤ i → i < stop → (wordsNat words).testBit i = false) :
    leafEnd words period fuel last = stop := by
  have hbit : ∀ i, (words.getD (i / 64) 0 >>> (i % 64)) &&& 1#64 = 0 ↔ (wordsNat words).testBit i = false := by
    intro i
    rw [testBit_wordsNat, ← Bool.not_eq_true, ← shift_and_one_ne_zero, not_not]
  induction fuel generalizing last with
  | zero =>
    rw [leafEnd]
    omega
  | succ fuel ih =>
    rw [leafEnd]
    simp only [hbit]
    rcases hlast.lt_or_eq with hlt | rfl
    · rw [if_pos ⟨by omega, hclear last le_rfl hlt⟩]
      exact ih (by omega) hlt fun i hi => hclear i (by omega)
    · rw [if_neg]
      rintro ⟨hlt, hzero⟩
      rcases hstop with rfl | hone
      · exact lt_irrefl _ hlt
      · rw [hone] at hzero
        cases hzero

/-- The leaf that starts here ends where the next one starts. -/
lemma leafEnd_leaf {words : Words} {period start : ℕ} (hperiod : period = start + rowWidth (leaf :: leaves))
    (hstarts : ∀ i, start + i < period → (wordsNat words).testBit (start + i) = startAt (leaf :: leaves) i) :
    leafEnd words period period (start + 1) = start + leaf.width := by
  have hpos := leaf.width_pos
  rw [rowWidth_cons] at hperiod
  refine leafEnd_eq (by omega) (by omega) (by omega) ?_ fun i hlow hhigh => ?_
  · by_cases hlast : rowWidth leaves = 0
    · exact .inl (by omega)
    · refine .inr ?_
      rw [hstarts _ (by omega), startAt, if_neg (lt_irrefl _), Nat.sub_self, startAt_zero (by omega)]
  · have hbit := hstarts (i - start) (by omega)
    rwa [show start + (i - start) = i by omega, startAt, if_pos (by omega), decide_eq_false (by omega)] at hbit

/-- One leaf, whose default stands at `start`. -/
lemma mergeLeaf_filled {offset start : ℕ} {v : G4} (h : v.Shaped w) (hfits : offset + leaf.width ≤ w)
    (hdefault : ∀ i < leaf.width, default.stateAt (start + i) = leaf.default i) (leaves : List Leaf) :
    Filled w v
      (if equalRange a b leaf.width offset (offset + leaf.width) then g4CopyBits v offset a offset leaf.width
        else g4CopyBits v offset default start leaf.width) offset leaf.width
      fun i => mergedAt a.stateAt b.stateAt (leaf :: leaves) offset (i - offset) := by
  by_cases hequal : KnownEqual a.stateAt b.stateAt offset leaf.width
  · rw [if_pos ((equalRange_iff le_rfl).2 hequal)]
    refine (Filled.copyBits h hfits a _).congr fun i hlow hhigh => ?_
    rw [mergedAt, if_pos (by omega), if_pos hequal]
  · rw [if_neg (hequal ∘ (equalRange_iff le_rfl).1)]
    refine (Filled.copyBits h hfits default _).congr fun i hlow hhigh => ?_
    rw [mergedAt, if_pos (by omega), if_neg hequal, hdefault _ (by omega)]

/-- The loop over the leaves of a period.  The induction is on the leaves that are left. -/
lemma mergePeriod_filled {base fuel start : ℕ} {v : G4} (h : v.Shaped w)
    (hperiod : default.width = start + rowWidth leaves) (hfits : base + default.width ≤ w)
    (hfuel : leaves.length ≤ fuel)
    (hstarts : ∀ i, start + i < default.width → starts.aNat.testBit (start + i) = startAt leaves i)
    (hdefault : ∀ i < rowWidth leaves, default.stateAt (start + i) = defaultAt leaves i) :
    Filled w v (mergePeriod a b default starts base fuel v start) (base + start) (rowWidth leaves)
      fun i => mergedAt a.stateAt b.stateAt leaves (base + start) (i - (base + start)) := by
  induction leaves generalizing start fuel v with
  | nil =>
    have hdone : mergePeriod a b default starts base fuel v start = v := by
      cases fuel with
      | zero => rfl
      | succ => rw [mergePeriod, if_neg (by rw [hperiod, rowWidth_nil]; omega)]
    rw [hdone]
    exact .refl h ..
  | cons leaf leaves ih =>
    obtain ⟨fuel, rfl⟩ : ∃ f, fuel = f + 1 := ⟨fuel - 1, by rw [length_cons] at hfuel; omega⟩
    have hpos := leaf.width_pos
    have hlast := leafEnd_leaf hperiod hstarts
    rw [rowWidth_cons] at hperiod
    rw [mergePeriod, if_pos (by omega), hlast]
    dsimp only
    rw [Nat.add_sub_cancel_left, ← add_assoc base start leaf.width]
    have hbits : ∀ i < leaf.width, default.stateAt (start + i) = leaf.default i := by
      intro i hi
      rw [hdefault i (by rw [rowWidth_cons]; omega), defaultAt, if_pos hi]
    have hleaf := mergeLeaf_filled (a := a) (b := b) h (show base + start + leaf.width ≤ w by omega) hbits leaves
    have hrest := @ih fuel (start + leaf.width) _ hleaf.shaped (by omega)
      (by rw [length_cons] at hfuel; omega)
      (fun i hi => by
        have hbit := hstarts (leaf.width + i) (by omega)
        rwa [startAt, if_neg (by omega), Nat.add_sub_cancel_left, ← add_assoc] at hbit)
      (fun i hi => by
        have hbit := hdefault (leaf.width + i) (by rw [rowWidth_cons]; omega)
        rwa [defaultAt, if_neg (by omega), Nat.add_sub_cancel_left, ← add_assoc] at hbit)
    rw [← add_assoc base] at hrest
    refine hleaf.append (hrest.congr fun i hlow hhigh => ?_)
    rw [mergedAt, if_neg (by omega), Nat.sub_sub]

/-- The merge of records, and of arrays of records. -/
lemma yields_llgGmpSv4RecordConditionalMerge {count : ℕ} (hcount : 0 < count) (hpos : 0 < rowWidth leaves)
    (ha : a.width = count * rowWidth leaves) (hb : b.width = a.width)
    (hlimit : a.width < llgGmpSupportedWidthLimit) (hperiod : default.width = rowWidth leaves)
    (hwidth : starts.width = rowWidth leaves)
    (hstarts : ∀ i < rowWidth leaves, starts.aNat.testBit i = startAt leaves i)
    (hdefault : ∀ i < rowWidth leaves, default.stateAt i = defaultAt leaves i) :
    ∃ out, llgGmpSv4RecordConditionalMerge a b default starts = some out ∧
      Yields out a.width false (mergedPeriods a.stateAt b.stateAt leaves) := by
  have hle : rowWidth leaves ≤ a.width := ha ▸ Nat.le_mul_of_pos_left _ hcount
  have hfirst : starts.a.getD 0 0 &&& 1#64 ≠ 0 := by
    have hbit := hstarts 0 hpos
    rw [startAt_zero hpos, G4.aNat, testBit_wordsNat] at hbit
    exact (shift_and_one_ne_zero _ 0).2 hbit
  have hshape : ¬(a.width = 0 ∨ a.width ≥ llgGmpSupportedWidthLimit ∨ a.width ≠ b.width ∨ default.width = 0 ∨
      default.width > a.width ∨ a.width % default.width ≠ 0 ∨ starts.width ≠ default.width ∨
      starts.a.getD 0 0 &&& 1#64 = 0) := by
    have hmod : a.width % default.width = 0 := by rw [hperiod, ha, mul_mod_left]
    simp only [hmod, hfirst, ne_eq, not_true_eq_false, or_false, false_or]
    omega
  simp only [llgGmpSv4RecordConditionalMerge, if_neg hshape]
  refine ⟨_, rfl, ?_⟩
  rw [hperiod]
  have hcounts : a.width / rowWidth leaves = count := by rw [ha, Nat.mul_div_cancel _ hpos]
  have hstep : ∀ (u : G4) (k : ℕ), u.Shaped a.width → k < a.width / rowWidth leaves →
      Filled a.width u (mergePeriod a b default starts (k * rowWidth leaves) (rowWidth leaves) u 0)
        (k * rowWidth leaves) (rowWidth leaves) (mergedPeriods a.stateAt b.stateAt leaves) := by
    intro u k hu hk
    rw [hcounts] at hk
    have hfits : k * rowWidth leaves + default.width ≤ a.width := by
      rw [ha, hperiod, ← succ_mul]
      exact Nat.mul_le_mul_right _ hk
    have hfilled := @mergePeriod_filled a b default starts a.width leaves (k * rowWidth leaves) (rowWidth leaves) 0
      u hu (by rw [hperiod, zero_add]) hfits (length_le_rowWidth leaves)
      (by simpa only [zero_add, hperiod] using hstarts) (by simpa only [zero_add] using hdefault)
    rw [add_zero] at hfilled
    exact hfilled.congr fun i hlow hhigh => (mergedPeriods_of_mem hlow hhigh).symm
  have hyields := (Filled.foldl (llgGmpSv4Zero_shaped a.width false) _ hstep).yields (by rw [hcounts, ha])
  rwa [isSigned_llgGmpSv4Zero] at hyields

end Records

/-! ## Arrays -/

section Arrays

variable {a b default : G4} {w : ℕ} {leaf : Leaf} {sign : Bool}
variable {count offset : ℕ} {f : ℕ → Bit} {v r : G4}

/-- The merge of bits. -/
lemma mergedPeriods_bit (f g : ℕ → Bit) (hleaf : leaf.width = 1) (i : ℕ) :
    mergedPeriods f g [leaf] i = if f i = g i ∧ (f i).isUnknown = false then f i else leaf.default 0 := by
  have hknown : KnownEqual f g i 1 ↔ f i = g i ∧ (f i).isUnknown = false := by
    refine ⟨fun h => h 0 Nat.one_pos, fun h j hj => ?_⟩
    obtain rfl : j = 0 := by omega
    exact h
  rw [mergedPeriods_leaf, hleaf]
  simp only [Nat.div_one, mul_one, mod_one, mergedAt, hleaf, Nat.one_pos, if_true, add_zero, hknown]

/-- The two words of a bit, as the merges of bits use them. -/
lemma stateAt_bit (h : default.Canonical) (hwidth : default.width = 1) :
    default.stateAt 0 = stateBit (default.smallA ≠ 0) (default.smallB ≠ 0) := by
  have hbit : ∀ {x : BitVec 64}, Below 1 x → x.getLsbD 0 = decide (x ≠ 0) := by
    intro x hx
    rw [Bool.eq_iff_iff, decide_eq_true_iff]
    constructor
    · rintro hone rfl
      exact absurd hone (by decide)
    · intro hne
      obtain ⟨k, -, hk⟩ := ne_zero_iff_getLsbD.1 hne
      rcases Nat.eq_zero_or_pos k with rfl | hpos
      · exact hk
      · rw [hx k hpos] at hk
        cases hk
  have hA := h.below_smallA (by omega)
  have hB := h.below_smallB (by omega)
  rw [hwidth] at hA hB
  rw [h.stateAt_small (by omega), hbit hA, hbit hB]

/-- The merge of two bits, as the words compute it. -/
lemma stateBit_merge (ax ay bx bY : Bool) (dx dy : Bool) :
    stateBit ((ax && !((ax ^^ bx) || ay || bY)) || (dx && ((ax ^^ bx) || ay || bY)))
      (dy && ((ax ^^ bx) || ay || bY)) =
      if stateBit ax ay = stateBit bx bY ∧ (stateBit ax ay).isUnknown = false then stateBit ax ay
      else stateBit dx dy := by
  revert ax ay bx bY dx dy
  decide

/-- One word of the merge of bits.  Above the width the words of the first operand are kept. -/
lemma mergeWord_filled (h : v.Shaped w) (hw : 0 < w) (ha : a.width = w) (hdefault : default.Canonical)
    (hwidth : default.width = 1) (hleaf : leaf.width = 1) (hsame : default.stateAt 0 = leaf.default 0) {i : ℕ}
    (hi : i < g4Words w) :
    Filled w v (mergeWord a b default v i) (i * 64) 64 fun p =>
      if p < w then mergedPeriods a.stateAt b.stateAt [leaf] p else stateBit (a.aNat.testBit p) false := by
  have hlength : crWords w = g4Words w := crWords_of_pos hw
  have hshaped := mergeWord_shaped hw a b default h i
  simp only [mergeWord, ha] at hshaped ⊢
  generalize hmask : wordMask w (g4Words w) i = mask at hshaped ⊢
  generalize hdifferent : ((a.a.getD i 0 ^^^ b.a.getD i 0) ||| a.wordsB.getD i 0 ||| b.wordsB.getD i 0) &&& mask =
    different at hshaped ⊢
  generalize hunknown : (if default.smallB ≠ 0 then BitVec.allOnes 64 else 0) &&& different = unknown
    at hshaped ⊢
  generalize hx : (a.a.getD i 0 &&& ~~~different) |||
    ((if default.smallA ≠ 0 then BitVec.allOnes 64 else 0) &&& different) = x at hshaped ⊢
  generalize hd : (if unknown ≠ 0 ∧ v.width > 64 ∧ v.b.isNone then llgGmpSv4Promote v else v) = d at hshaped ⊢
  have hd' : d.Shaped w := hd ▸ G4.Shaped.ite h.promote h
  have hstate : d.isSigned = v.isSigned ∧ ∀ p, d.stateAt p = v.stateAt p := by
    rw [← hd]
    split_ifs
    · exact ⟨(promote_planes v).2.2, stateAt_promote v⟩
    · exact ⟨rfl, fun _ => rfl⟩
  have hnone : d.b = none → ∀ k < 64, unknown.getLsbD k = false := by
    intro hb k _
    by_cases hpromote : unknown ≠ 0 ∧ v.width > 64 ∧ v.b.isNone
    · rw [if_pos hpromote] at hd
      exact absurd (hd ▸ hb) (promote_b_ne_none hpromote.2.1)
    · rw [if_neg hpromote] at hd
      subst hd
      have hzero : unknown = 0 := by
        by_contra hne
        exact hpromote ⟨hne, h.wide_of_none hb, by rw [hb]; rfl⟩
      rw [hzero]
      exact getLsbD_zero
  have hpatch := stateAt_patch (d := d) (a := d.a.set i x) (f := fun b => b.set i unknown)
    (patched_set (by rw [hd'.length_a, hlength]; exact hi) _)
    (fun b hb => patched_set (by rw [hd'.length_b b hb, hlength]; exact hi) _) hnone
  refine ⟨hshaped, hstate.1, fun p => ?_⟩
  rw [hpatch, hstate.2 p, mul_comm 64 i]
  by_cases hin : i * 64 ≤ p ∧ p < i * 64 + 64
  · obtain ⟨k, rfl⟩ := Nat.exists_eq_add_of_le hin.1
    have hk : k < 64 := by omega
    have hword : ∀ ws : Words, (ws.getD i 0).getLsbD k = (wordsNat ws).testBit (i * 64 + k) :=
      fun ws => getLsbD_getD ws hk (by omega)
    rw [if_pos hin, if_pos hin, Nat.add_sub_cancel_left, ← hx, ← hunknown, ← hdifferent, ← hmask]
    simp only [getLsbD_or, getLsbD_and, getLsbD_not, getLsbD_xor, hword,
      getLsbD_ite_zero, BitVec.getLsbD_allOnes, getLsbD_wordMask hi hk, ← bNat_eq_wordsNat, decide_eq_true hk,
      Bool.true_and, Bool.and_true, mul_comm 64 i]
    by_cases hpos : i * 64 + k < w
    · rw [if_pos hpos, mergedPeriods_bit _ _ hleaf, ← hsame, stateAt_bit hdefault hwidth]
      simp only [decide_eq_true hpos, Bool.and_true]
      exact stateBit_merge ..
    · rw [if_neg hpos]
      simp only [decide_eq_false hpos, Bool.and_false, Bool.not_false, Bool.and_true, Bool.or_false]
      rfl
  · rw [if_neg hin, if_neg hin]

/-- The merge of wide arrays. -/
lemma yields_llgGmpSv4ArrayConditionalMergeWide (hcount : 0 < count)
    (ha : a.width = count * leaf.width) (hb : b.width = a.width) (hlimit : a.width < llgGmpSupportedWidthLimit)
    (hdefault : Yields default leaf.width sign leaf.default) :
    ∃ out, llgGmpSv4ArrayConditionalMergeWide a b default = some out ∧
      Yields out a.width false (mergedPeriods a.stateAt b.stateAt [leaf]) := by
  have hpos := leaf.width_pos
  have hle : leaf.width ≤ a.width := ha ▸ Nat.le_mul_of_pos_left _ hcount
  have hwidth := hdefault.width
  have hshape : ¬(a.width = 0 ∨ a.width ≥ llgGmpSupportedWidthLimit ∨ a.width ≠ b.width ∨ default.width = 0 ∨
      default.width > a.width ∨ a.width % default.width ≠ 0) := by
    have hmod : a.width % default.width = 0 := by rw [hwidth, ha, mul_mod_left]
    omega
  simp only [llgGmpSv4ArrayConditionalMergeWide, if_neg hshape]
  by_cases hbits : default.width = 1
  · rw [if_pos hbits]
    refine ⟨_, rfl, ?_⟩
    have hfilled := Filled.foldl (llgGmpSv4Zero_shaped a.width false) (g4Words a.width)
      fun u k hu hk => mergeWord_filled (a := a) (b := b) hu (by omega) rfl hdefault.canonical hbits
        (hwidth.symm.trans hbits) (hdefault.stateAt 0 hpos) hk
    have hyields := hfilled.yields (by rw [g4Words]; omega)
    rw [isSigned_llgGmpSv4Zero] at hyields
    exact hyields.congr fun i hi => if_pos hi
  · rw [if_neg hbits]
    refine ⟨_, rfl, ?_⟩
    have hcounts : a.width / leaf.width = count := by rw [ha, Nat.mul_div_cancel _ hpos]
    have hrow : rowWidth [leaf] = leaf.width := add_zero _
    have hstep : ∀ (u : G4) (k : ℕ), u.Shaped a.width → k < a.width / leaf.width →
        Filled a.width u (mergeElement a b default u (k * leaf.width)) (k * leaf.width) leaf.width
          (mergedPeriods a.stateAt b.stateAt [leaf]) := by
      intro u k hu hk
      rw [hcounts] at hk
      have hfits : k * leaf.width + leaf.width ≤ a.width := by
        rw [ha, ← succ_mul]
        exact Nat.mul_le_mul_right _ hk
      rw [mergeElement, hwidth]
      refine (mergeLeaf_filled hu hfits (by simpa only [zero_add] using hdefault.stateAt) []).congr
        fun i hlow hhigh => ?_
      rw [← hrow] at hlow hhigh
      rw [mergedPeriods_of_mem hlow hhigh, hrow]
    have hyields := (Filled.foldl (llgGmpSv4Zero_shaped a.width false) _ hstep).yields (by rw [hcounts, ha])
    rw [isSigned_llgGmpSv4Zero] at hyields
    rw [hwidth]
    exact hyields

/-- Bits are put into a narrow value that is zero there. -/
lemma yields_putSmall_or (hw : w ≤ 64) {stride : ℕ} (hfits : offset + stride ≤ w)
    (hr : Yields r w false f) (hzero : ∀ i, offset ≤ i → i < offset + stride → f i = .zero) {x y : BitVec 64}
    (hx : Below stride x) (hy : Below stride y) :
    Yields (r.putSmall (r.smallA ||| x <<< offset) (r.smallB ||| y <<< offset)) w false fun i =>
      if offset ≤ i ∧ i < offset + stride then stateBit (x.getLsbD (i - offset)) (y.getLsbD (i - offset))
      else f i := by
  obtain rfl : r.width = w := hr.width
  refine ⟨putSmall_canonical hw ((hr.canonical.below_smallA hw).or (hx.shiftLeft hfits))
    ((hr.canonical.below_smallB hw).or (hy.shiftLeft hfits)), rfl, hr.isSigned, fun i hi => ?_⟩
  have hbits := hr.stateAt i hi
  rw [hr.canonical.stateAt_small hw] at hbits
  rw [G4.putSmall, stateAt_singleton]
  simp only [getLsbD_or, BitVec.getLsbD_shiftLeft, decide_eq_true (show i < 64 by omega), Bool.true_and]
  by_cases hlow : offset ≤ i
  · rw [decide_eq_false (Nat.not_lt.2 hlow), Bool.not_false, Bool.true_and, Bool.true_and]
    by_cases hhigh : i < offset + stride
    · rw [hzero i hlow hhigh, stateBit_eq_zero] at hbits
      rw [if_pos ⟨hlow, hhigh⟩, hbits.1, hbits.2, Bool.false_or, Bool.false_or]
    · rw [if_neg (hhigh ∘ And.right), hx _ (by omega), hy _ (by omega), Bool.or_false, Bool.or_false, hbits]
  · rw [if_neg (hlow ∘ And.left), decide_eq_true (Nat.lt_of_not_le hlow), Bool.not_true, Bool.false_and,
      Bool.false_and, Bool.or_false, Bool.or_false, hbits]

/-- The comparison of two elements of narrow arrays. -/
lemma smallEqual_iff (ha : a.Canonical) (hb : b.Canonical) (haw : a.width ≤ 64) (hbw : b.width ≤ 64)
    {stride : ℕ} (hfits : offset + stride ≤ 64) :
    ((a.smallA >>> offset) &&& g4Mask stride = (b.smallA >>> offset) &&& g4Mask stride ∧
      ((a.smallB ||| b.smallB) >>> offset) &&& g4Mask stride = 0) ↔
      KnownEqual a.stateAt b.stateAt offset stride := by
  have hbit : ∀ (x : BitVec 64) (k : ℕ), ((x >>> offset) &&& g4Mask stride).getLsbD k =
      (x.getLsbD (offset + k) && decide (k < stride)) := by
    intro x k
    rw [getLsbD_and, BitVec.getLsbD_ushiftRight, getLsbD_g4Mask]
    congr 2
    exact propext (by omega)
  simp only [KnownEqual, stateAt_known_iff, ← ha.toNat_smallA haw, ← hb.toNat_smallA hbw, ← ha.toNat_smallB haw,
    ← hb.toNat_smallB hbw, BitVec.testBit_toNat]
  constructor
  · rintro ⟨hsame, hzero⟩ j hj
    have hsame := congrArg (·.getLsbD j) hsame
    have hzero := congrArg (·.getLsbD j) hzero
    simp only [hbit, decide_eq_true hj, Bool.and_true, getLsbD_or] at hsame hzero
    obtain ⟨hleft, hright⟩ := Bool.or_eq_false_iff.1 (hzero.trans getLsbD_zero)
    exact ⟨hleft, hright, hsame⟩
  · intro h
    constructor <;> refine eq_of_getLsbD_eq fun k _ => ?_
    · rw [hbit, hbit]
      by_cases hk : k < stride
      · rw [(h k hk).2.2]
      · rw [decide_eq_false hk, Bool.and_false, Bool.and_false]
    · rw [hbit, getLsbD_or]
      by_cases hk : k < stride
      · rw [(h k hk).1, (h k hk).2.1]
        exact BitVec.getLsbD_zero.symm
      · rw [decide_eq_false hk, Bool.and_false]
        exact BitVec.getLsbD_zero.symm

/-- One element of the merge of narrow arrays, into a result that is zero there. -/
lemma mergeSmall_yields (ha : a.Canonical) (hb : b.Canonical)
    (hw : w ≤ 64) (haw : a.width = w) (hbw : b.width = w) (hdefault : Yields default leaf.width sign leaf.default)
    (hfits : offset + leaf.width ≤ w) (hr : Yields r w false f)
    (hzero : ∀ i, offset ≤ i → i < offset + leaf.width → f i = .zero) :
    Yields (mergeSmall a b default r offset) w false fun i =>
      if offset ≤ i ∧ i < offset + leaf.width then mergedAt a.stateAt b.stateAt [leaf] offset (i - offset)
      else f i := by
  obtain ⟨hcanonical, hwidth, -, hstates⟩ := hdefault
  have hequal := smallEqual_iff ha hb (haw ▸ hw) (hbw ▸ hw) (hfits.trans hw)
  rw [mergeSmall, hwidth]
  simp only [decide_eq_true_iff, hequal]
  by_cases hknown : KnownEqual a.stateAt b.stateAt offset leaf.width
  · simp only [if_pos hknown]
    refine (yields_putSmall_or hw hfits hr hzero (.and_right _ (below_g4Mask _)) (below_zero _)).congr
      fun i hi => ?_
    by_cases hin : offset ≤ i ∧ i < offset + leaf.width
    · have hbit := (hknown (i - offset) (by omega)).2
      rw [ha.stateAt_small (haw ▸ hw), isUnknown_stateBit] at hbit
      rw [if_pos hin, if_pos hin, mergedAt, if_pos (by omega), if_pos hknown, ha.stateAt_small (haw ▸ hw), hbit,
        getLsbD_and, BitVec.getLsbD_ushiftRight, getLsbD_g4Mask, decide_eq_true (by omega), Bool.and_true]
      exact congrArg _ getLsbD_zero
    · rw [if_neg hin, if_neg hin]
  · simp only [if_neg hknown]
    have hA := hcanonical.below_smallA (by omega)
    have hB := hcanonical.below_smallB (by omega)
    rw [hwidth] at hA hB
    refine (yields_putSmall_or hw hfits hr hzero hA hB).congr fun i hi => ?_
    by_cases hin : offset ≤ i ∧ i < offset + leaf.width
    · rw [if_pos hin, if_pos hin, mergedAt, if_pos (by omega), if_neg hknown, ← hstates _ (by omega),
        hcanonical.stateAt_small (by omega)]
    · rw [if_neg hin, if_neg hin]

/-- The loop over the elements of narrow arrays. -/
lemma foldl_mergeSmall_yields (ha : a.Canonical) (hb : b.Canonical) (hw : w ≤ 64) (haw : a.width = w)
    (hbw : b.width = w) (hdefault : Yields default leaf.width sign leaf.default)
    (hfits : count * leaf.width ≤ w) :
    Yields ((range count).foldl (fun r i => mergeSmall a b default r (i * leaf.width)) (g4Small 0 0 w false))
      w false fun i => if i < count * leaf.width then mergedPeriods a.stateAt b.stateAt [leaf] i else .zero := by
  have hrow : rowWidth [leaf] = leaf.width := add_zero _
  induction count with
  | zero =>
    refine yields_g4Small hw fun i _ => ?_
    rw [zero_mul, if_neg (not_lt_zero i)]
    exact congrArg₂ stateBit getLsbD_zero getLsbD_zero
  | succ count ih =>
    rw [succ_mul] at hfits
    rw [range_succ, foldl_append, succ_mul]
    refine (mergeSmall_yields ha hb hw haw hbw hdefault hfits (ih (by omega)) fun i hlow _ => if_neg (by omega)).congr
      fun i hi => ?_
    by_cases hin : count * leaf.width ≤ i ∧ i < count * leaf.width + leaf.width
    · rw [if_pos hin, if_pos hin.2]
      rw [← hrow] at hin
      rw [mergedPeriods_of_mem hin.1 hin.2, hrow]
    · rw [if_neg hin]
      exact if_congr (by omega) rfl rfl

/-- The merge of arrays. -/
lemma yields_llgGmpSv4ArrayConditionalMerge (ha : a.Canonical) (hb : b.Canonical) (hcount : 0 < count)
    (haw : a.width = count * leaf.width) (hbw : b.width = a.width) (hlimit : a.width < llgGmpSupportedWidthLimit)
    (hdefault : Yields default leaf.width sign leaf.default) :
    ∃ out, llgGmpSv4ArrayConditionalMerge a b default = some out ∧
      Yields out a.width false (mergedPeriods a.stateAt b.stateAt [leaf]) := by
  rw [llgGmpSv4ArrayConditionalMerge]
  by_cases hwide : a.width > 64
  · rw [if_pos hwide]
    exact yields_llgGmpSv4ArrayConditionalMergeWide hcount haw hbw hlimit hdefault
  have hw : a.width ≤ 64 := by omega
  have hpos := leaf.width_pos
  have hle : leaf.width ≤ a.width := haw ▸ Nat.le_mul_of_pos_left _ hcount
  have hwidth := hdefault.width
  have hshape : ¬(a.width = 0 ∨ a.width ≠ b.width ∨ default.width = 0 ∨ default.width > a.width ∨
      a.width % default.width ≠ 0) := by
    have hmod : a.width % default.width = 0 := by rw [hwidth, haw, mul_mod_left]
    omega
  simp only [if_neg hwide, if_neg hshape]
  by_cases hbits : default.width = 1
  · rw [if_pos hbits]
    refine ⟨_, rfl, yields_g4Small hw fun i hi => ?_⟩
    rw [mergedPeriods_bit _ _ (hwidth.symm.trans hbits), ← hdefault.stateAt 0 hpos,
      stateAt_bit hdefault.canonical hbits, ha.stateAt_small hw, hb.stateAt_small (by omega)]
    simp only [getLsbD_or, getLsbD_and, getLsbD_not, getLsbD_xor,
      getLsbD_ite_zero, decide_eq_true (show i < 64 by omega), Bool.true_and]
    exact stateBit_merge ..
  · rw [if_neg hbits, hwidth]
    refine ⟨_, rfl, ?_⟩
    have hcounts : a.width / leaf.width = count := by rw [haw, Nat.mul_div_cancel _ hpos]
    have hloop := foldl_mergeSmall_yields ha hb hw rfl hbw hdefault haw.ge
    rw [hcounts]
    exact hloop.congr fun i hi => if_pos (haw ▸ hi)

lemma llgGmpSv4ArrayConditionalMerge_canonical (ha : a.Canonical) (hb : b.Canonical) (hdefault : default.Canonical) :
    ∀ out ∈ llgGmpSv4ArrayConditionalMerge a b default, out.Canonical := by
  intro out hout
  have hshape : ¬(a.width = 0 ∨ a.width ≥ llgGmpSupportedWidthLimit ∨ a.width ≠ b.width ∨ default.width = 0 ∨
      default.width > a.width ∨ a.width % default.width ≠ 0) := by
    intro hshape
    by_cases hwide : a.width > 64
    · rw [llgGmpSv4ArrayConditionalMerge, if_pos hwide, llgGmpSv4ArrayConditionalMergeWide, if_pos hshape] at hout
      cases hout
    · rw [llgGmpSupportedWidthLimit] at hshape
      simp only [llgGmpSv4ArrayConditionalMerge, if_neg hwide] at hout
      rw [if_pos (by omega)] at hout
      cases hout
  have hcount := Nat.div_mul_cancel (dvd_of_mod_eq_zero (show a.width % default.width = 0 by omega))
  let leaf : Leaf := ⟨default.width, default.stateAt, by omega⟩
  have hleaf : Yields default leaf.width default.isSigned leaf.default := hdefault.yields
  obtain ⟨_, hmerge, hyields⟩ := yields_llgGmpSv4ArrayConditionalMerge ha hb
    (Nat.div_pos (by omega) (by omega)) hcount.symm (by omega) (by omega) hleaf
  cases hmerge.symm.trans hout
  exact hyields.canonical

end Arrays

/-! ## The runtime and the folding -/

/-- The constants of `IrLeafMerge` for a type. -/
structure IsLeafMerge (layout : Layout) (default starts : G4) : Prop where
  default : Yields default layout.width false (defaultAt layout.leaves)
  starts : ∃ words, recordLeafStarts layout = .ok words ∧
    Yields starts layout.width false fun i => Bit.ofBool ((wordsNat words).testBit i)

/-- In payloads that repeat a row of leaves, a leaf that is known to be equal in both operands is kept, and
every other one is its default. -/
def MergesLeaves (a b out : G4) (count : ℕ) (leaves : List Leaf) : Prop :=
  ∀ k < count, ∀ before leaf after, leaves = before ++ leaf :: after → ∀ j < leaf.width,
    let low := k * rowWidth leaves + rowWidth before
    out.stateAt (low + j) =
      if KnownEqual a.stateAt b.stateAt low leaf.width then a.stateAt (low + j) else leaf.default j

section Agreement

variable {a b out : G4} {count : ℕ} {leaves : List Leaf}

lemma mergesLeaves_of_yields
    (h : Yields out (count * rowWidth leaves) false (mergedPeriods a.stateAt b.stateAt leaves)) :
    MergesLeaves a b out count leaves := by
  rintro k hk before leaf after hleaves j hj
  have hrow : rowWidth leaves = rowWidth before + (leaf.width + rowWidth after) := by
    rw [hleaves, rowWidth_append, rowWidth_cons]
  have hperiod : k * rowWidth leaves + rowWidth leaves ≤ count * rowWidth leaves := by
    rw [← succ_mul]
    exact Nat.mul_le_mul_right _ hk
  dsimp only
  rw [h.stateAt _ (by omega), mergedPeriods_of_mem (k := k) (by omega) (by omega), hleaves,
    show k * rowWidth (before ++ leaf :: after) + rowWidth before + j - k * rowWidth (before ++ leaf :: after) =
      rowWidth before + j by omega, mergedAt_leaf _ _ _ _ _ _ hj]

/-- The folding reads the operands as the runtime does. -/
lemma toValue_merge {w : ℕ} (hw : w = count * rowWidth leaves) (ha : a.width = w) (hb : b.width = w)
    (h : Yields out w false (mergedPeriods a.stateAt b.stateAt leaves)) :
    out.toValue = ofBits (count * rowWidth leaves) false (mergedPeriods a.toValue.bitLsb b.toValue.bitLsb leaves) := by
  rw [h.toValue_eq, ← hw]
  refine ofBits_congr fun i hi => (mergedPeriods_congr (fun j hj => ?_) (hw ▸ hi)).symm
  rw [← hw] at hj
  exact ⟨bitLsb_ofBits (ha ▸ hj), bitLsb_ofBits (hb ▸ hj)⟩

end Agreement

/-- With an unknown condition, the folding of a conditional on records or arrays gives what the runtime
computes, and both keep a leaf exactly if it is known to be equal in the operands. -/
theorem merges_agree {sel : Elab.Value} (hsel : Bit.one ∉ sel.bits) (hunknown : sel.isUnknown = true) {a b : G4}
    (ha : a.Canonical) (hb : b.Canonical) (hab : b.width = a.width)
    (hlimit : a.width < llgGmpSupportedWidthLimit) {count : ℕ} (hcount : 0 < count) :
    (∀ (layout : Layout) (default starts : G4), 0 < layout.width → a.width = count * layout.width →
      IsLeafMerge layout default starts →
      ∃ out, llgGmpSv4RecordConditionalMerge a b default starts = some out ∧
        foldStructMux (some sel) (some a.toValue) (some b.toValue) (some default.toValue) (some starts.toValue) =
          some out.toValue ∧
        MergesLeaves a b out count layout.leaves) ∧
    (∀ (leaf : Leaf) (default : G4), a.width = count * leaf.width →
      Yields default leaf.width false leaf.default →
      ∃ out, llgGmpSv4ArrayConditionalMerge a b default = some out ∧
        foldArrayMux (some sel) (some a.toValue) (some b.toValue) (some default.toValue) = some out.toValue ∧
        MergesLeaves a b out count [leaf]) := by
  refine ⟨fun layout default starts hpos hwidth hmerge => ?_, fun leaf default hwidth hdefault => ?_⟩
  · obtain ⟨hdefault, words, hwords, hstarts⟩ := hmerge
    obtain ⟨marked, hmarked, hbits⟩ := testBit_recordLeafStarts layout
    obtain rfl : marked = words := Except.ok.inj (hmarked.symm.trans hwords)
    rw [← rowWidth_leaves] at hpos hwidth hdefault hstarts
    have hplane : ∀ i < rowWidth layout.leaves, starts.aNat.testBit i = startAt layout.leaves i := by
      intro i hi
      have hbit := hstarts.stateAt i hi
      rw [hbits, ← stateBit_false, G4.stateAt] at hbit
      exact (stateBit_inj.1 hbit).1
    obtain ⟨out, hrun, hout⟩ := yields_llgGmpSv4RecordConditionalMerge hcount hpos hwidth hab hlimit hdefault.width
      hstarts.width hplane hdefault.stateAt
    refine ⟨out, hrun, ?_, mergesLeaves_of_yields (hwidth ▸ hout)⟩
    rw [toValue_merge hwidth rfl hab hout]
    refine foldStructMux_eq hsel hunknown hpos ((width_ofBits ..).trans hwidth)
      ((width_ofBits ..).trans (hab.trans hwidth)) ((width_ofBits ..).trans hdefault.width)
      ((width_ofBits ..).trans hstarts.width) (fun i hi => ?_) fun i hi => ?_
    · rw [G4.toValue, bitLsb_ofBits (hstarts.width ▸ hi), hstarts.stateAt i hi, hbits]
    · rw [G4.toValue, bitLsb_ofBits (hdefault.width ▸ hi), hdefault.stateAt i hi]
  · have hrow : rowWidth [leaf] = leaf.width := add_zero _
    obtain ⟨out, hrun, hout⟩ := yields_llgGmpSv4ArrayConditionalMerge ha hb hcount hwidth hab hlimit hdefault
    rw [← hrow] at hwidth
    refine ⟨out, hrun, ?_, mergesLeaves_of_yields (hwidth ▸ hout)⟩
    rw [toValue_merge hwidth rfl hab hout]
    refine foldArrayMux_eq hsel hunknown ((width_ofBits ..).trans hwidth)
      ((width_ofBits ..).trans (hab.trans hwidth)) ((width_ofBits ..).trans hdefault.width) fun i hi => ?_
    rw [G4.toValue, bitLsb_ofBits (hdefault.width ▸ hi), hdefault.stateAt i hi]

/-- A leaf with the default of its state type. -/
def scalarLeaf (width : ℕ) (h : 0 < width) (twoState : Bool) : Leaf :=
  ⟨width, fun _ => if twoState then .zero else .x, h⟩

/-- Two records with a two-state vector and an array of two bits, and an array of two vectors. -/
theorem merges_agree_records :
    (∃ out, llgGmpSv4RecordConditionalMerge (g4Small 0xd6 0 8 false) (g4Small 0x96 0x80 8 false)
        (g4Small 3 3 4 false) (g4Small 7 0 4 false) = some out ∧
      foldStructMux (some (ofBits 1 false fun _ => .x)) (some (g4Small 0xd6 0 8 false).toValue)
        (some (g4Small 0x96 0x80 8 false).toValue) (some (g4Small 3 3 4 false).toValue)
        (some (g4Small 7 0 4 false).toValue) = some out.toValue ∧
      MergesLeaves (g4Small 0xd6 0 8 false) (g4Small 0x96 0x80 8 false) out 2
        (Layout.record [.leaf (scalarLeaf 2 (by decide) true),
          .array 2 (.leaf (scalarLeaf 1 (by decide) false))]).leaves) ∧
    ∃ out, llgGmpSv4ArrayConditionalMerge (g4Small 0xd6 0 8 false) (g4Small 0x96 0x80 8 false)
        (g4Small 15 15 4 false) = some out ∧
      foldArrayMux (some (ofBits 1 false fun _ => .x)) (some (g4Small 0xd6 0 8 false).toValue)
        (some (g4Small 0x96 0x80 8 false).toValue) (some (g4Small 15 15 4 false).toValue) = some out.toValue ∧
      MergesLeaves (g4Small 0xd6 0 8 false) (g4Small 0x96 0x80 8 false) out 2
        [scalarLeaf 4 (by decide) false] := by
  have hsel : Bit.one ∉ (ofBits 1 false fun _ => .x).bits := by decide
  have hagree := merges_agree hsel (by decide)
    (g4Small_ok (show 8 ≤ 64 by decide) 0xd6 0 false) (g4Small_ok (show 8 ≤ 64 by decide) 0x96 0x80 false) rfl
    (by decide) (show 0 < 2 by decide)
  refine ⟨hagree.1 _ _ _ (by decide) (by decide) ⟨yields_g4Small (by decide) (by decide),
    [7], by rfl, yields_g4Small (by decide) (by decide)⟩, hagree.2 _ _ rfl (yields_g4Small (by decide) (by decide))⟩

/-- An element that is the same in both operands but has an unknown bit is not kept. -/
theorem merge_unknown_element :
    llgGmpSv4ArrayConditionalMerge (g4Small 3 1 2 false) (g4Small 3 1 2 false) (llgGmpSv4X 2 false) =
        some (llgGmpSv4X 2 false) ∧
      foldArrayMux (some (ofBits 1 false fun _ => .x)) (some (g4Small 3 1 2 false).toValue)
        (some (g4Small 3 1 2 false).toValue) (some (llgGmpSv4X 2 false).toValue) =
        some (llgGmpSv4X 2 false).toValue ∧
      (llgGmpSv4X 2 false).stateAt 1 ≠ (g4Small 3 1 2 false).stateAt 1 := by
  decide +kernel

end Lapligence.Value
