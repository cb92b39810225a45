import Lapligence.Value.Windows

/-!
# What selections read and write

A selection addresses positions of a value: one bit, a part between two bounds in either direction, or an
indexed part at a number or at a value.  `Selection.position` is the position that a bit of the selection
addresses.  `selection_reads` says that a selection yields the addressed bits, with X outside the value, and
`selection_writes` that an assignment to a selection writes the addressed bits that lie in the target and
leaves the others.
-/

namespace Lapligence.Value

open WordLists Constraints Elab BitVec Nat Option

/-! ## Indices -/

section Index

variable {v : G4}

lemma signedWord_eq (x : BitVec 64) : signedWord x = x.toInt := by
  have hlt := x.isLt
  rw [signedWord, int64Max, toInt_eq_toNat_cond, toNat_not]
  split_ifs <;> omega

/-- The sign bit counts negatively. -/
lemma intAs_eq (h : v.Canonical) :
    v.intAs v.isSigned =
      if v.isSigned = true ∧ v.aNat.testBit (v.width - 1) = true then (v.aNat : ℤ) - 2 ^ v.width
      else v.aNat := by
  have hlt := h.aNat_lt
  rw [G4.intAs, ← intNat, intNat_eq hlt, magnitude]
  simp only [isNegative, Bool.and_eq_true]
  split_ifs with hneg
  · have hne : v.aNat ≠ 0 := fun hzero => by simp [hzero] at hneg
    rw [mod_eq_of_lt (by omega), cast_sub hlt.le]
    push_cast
    ring
  · rfl

/-- A narrow number with the bits above its width set. -/
lemma toInt_or_not_g4Mask {x : BitVec 64} {w : ℕ} (hw : w ≤ 64) (hx : x.toNat < 2 ^ w)
    (hhigh : 2 ^ 64 ≤ 2 * (x.toNat + (2 ^ 64 - 2 ^ w))) :
    (x ||| ~~~g4Mask w).toInt = x.toNat - 2 ^ w := by
  have hpow : 2 ^ w ≤ 2 ^ 64 := Nat.pow_le_pow_right (by decide) hw
  have hmask : (~~~g4Mask w).toNat = 2 ^ 64 - 2 ^ w := by
    have hones : (g4Mask w).toNat = 2 ^ w - 1 := by
      have hand := toNat_and_g4Mask (allOnes 64) w
      rwa [allOnes_and, toNat_allOnes, ones_mod hw] at hand
    have hpos := Nat.two_pow_pos w
    rw [toNat_not, hones]
    omega
  have hor : (x ||| ~~~g4Mask w).toNat = x.toNat + (2 ^ 64 - 2 ^ w) := by
    rw [← add_eq_or_of_and_eq_zero, toNat_add, hmask, mod_eq_of_lt (by omega)]
    refine eq_of_getLsbD_eq fun i hi => ?_
    rw [getLsbD_and, getLsbD_not, getLsbD_g4Mask, getLsbD_zero]
    by_cases hlow : i < w
    · simp [hlow, hi]
    · rw [below_of_toNat_lt hx i (by omega), Bool.false_and]
  have hcast : ((2 ^ w : ℕ) : ℤ) = 2 ^ w := by push_cast; rfl
  rw [toInt_eq_toNat_cond, hor, if_neg (by omega), ← hcast]
  omega

/-- An index fits a signed word or there is none. -/
def int64Of (i : ℤ) : Option ℤ := if -2 ^ 63 ≤ i ∧ i < 2 ^ 63 then some i else none

lemma signBit_small (h : v.Canonical) (hw : v.width ≤ 64) :
    v.isSigned = true ∧ v.width ≠ 0 ∧ (v.smallA >>> (v.width - 1)) &&& 1#64 ≠ 0 ↔
      v.isSigned = true ∧ v.aNat.testBit (v.width - 1) = true := by
  have hsmall := h.toNat_smallA hw
  rw [negative_word_iff (hsmall ▸ h.aNat_lt), isNegative, Bool.and_eq_true, hsmall]

lemma g4SelectionSmallIndex_eq (h : v.Canonical) (hw : v.width ≤ 64) :
    g4SelectionSmallIndex v = if v.bNat ≠ 0 then none else int64Of (v.intAs v.isSigned) := by
  have hlt := h.aNat_lt
  have hsmall := h.toNat_smallA hw
  have hpow : 2 ^ v.width ≤ 2 ^ 64 := Nat.pow_le_pow_right (by decide) hw
  rw [g4SelectionSmallIndex, if_congr (h.smallB_ne_zero hw) rfl rfl]
  refine if_congr Iff.rfl rfl ?_
  rw [if_congr (signBit_small h hw) rfl rfl, intAs_eq h, int64Of]
  have hcast : ((2 ^ v.width : ℕ) : ℤ) = 2 ^ v.width := by push_cast; rfl
  by_cases hneg : v.isSigned = true ∧ v.aNat.testBit (v.width - 1) = true
  · -- the sign bit makes the number at least `-2 ^ (width - 1)`
    have hge : 2 ^ (v.width - 1) ≤ v.aNat := ge_two_pow_of_testBit hneg.2
    have hhalf : 2 ^ v.width ≤ 2 * 2 ^ (v.width - 1) := by
      rw [← Nat.pow_succ']
      exact Nat.pow_le_pow_right (by decide) (by omega)
    have hint := toInt_or_not_g4Mask hw (hsmall ▸ hlt) (by rw [hsmall]; omega)
    rw [if_pos hneg, if_pos hneg, signedWord_eq, hint, hsmall, if_pos]
    rw [← hcast]
    omega
  · rw [if_neg hneg, if_neg hneg, hsmall, int64Max, signedWord_eq, toInt_eq_toNat_cond, hsmall]
    by_cases hbig : v.aNat > 2 ^ 63 - 1
    · rw [if_pos hbig, if_neg (by omega)]
    · rw [if_neg hbig, if_pos (by omega), if_pos (by omega)]

lemma shift_63_ne_zero (x : BitVec 64) : (x >>> 63) ≠ 0 ↔ x.getLsbD 63 = true := by
  have hlt := x.isLt
  rw [ne_eq, toNat_eq, toNat_ushiftRight, shiftRight_eq_div_pow, ← testBit_toNat,
    testBit_eq_decide_div_mod_eq, decide_eq_true_iff]
  simp only [ofNat_eq_ofNat, toNat_ofNat, zero_mod]
  omega

/-- The word at `63` and the words after the first show the sign exactly if the bits from `63` on do. -/
lemma high_words_iff (h : v.Canonical) (hw : 64 < v.width) (negative : Bool) :
    (((v.a.getD 0 0 >>> 63) ≠ 0 ↔ negative = true) ∧
      ((List.range (g4Words v.width)).all fun i => i = 0 ∨ v.a.getD i 0 =
        if negative then wordMask v.width (g4Words v.width) i else 0) = true) ↔
    ∀ k, 63 ≤ k → k < v.width → v.aNat.testBit k = negative := by
  have hbit : ∀ i k, k < 64 → (v.a.getD i 0).getLsbD k = v.aNat.testBit (64 * i + k) :=
    fun i k hk => getLsbD_getD v.a hk rfl
  have hword : ∀ i < g4Words v.width, v.a.getD i 0 =
      (if negative then wordMask v.width (g4Words v.width) i else 0) ↔
      ∀ k < 64, 64 * i + k < v.width → v.aNat.testBit (64 * i + k) = negative := by
    intro i hi
    have hexpected : ∀ k < 64, (if negative then wordMask v.width (g4Words v.width) i else 0).getLsbD k =
        (negative && decide (64 * i + k < v.width)) := fun k hk => by
      rw [getLsbD_ite_zero, getLsbD_wordMask hi hk, Bool.decide_eq_true]
    constructor
    · intro heq k hk hlt
      rw [← hbit i k hk, heq, hexpected k hk, decide_eq_true hlt, Bool.and_true]
    · intro hall
      refine eq_of_getLsbD_eq fun k hk => ?_
      rw [hbit i k hk, hexpected k hk]
      by_cases hlt : 64 * i + k < v.width
      · rw [hall k hk hlt, decide_eq_true hlt, Bool.and_true]
      · rw [decide_eq_false hlt, Bool.and_false]
        exact testBit_beyond h.aNat_lt (by omega)
  have hfirst : ((v.a.getD 0 0 >>> 63) ≠ 0 ↔ negative = true) ↔ v.aNat.testBit 63 = negative := by
    rw [shift_63_ne_zero, hbit 0 63 (by decide)]
    exact Bool.eq_iff_iff.symm
  have hrest : ((List.range (g4Words v.width)).all fun i => i = 0 ∨ v.a.getD i 0 =
      if negative then wordMask v.width (g4Words v.width) i else 0) = true ↔
      ∀ k, 64 ≤ k → k < v.width → v.aNat.testBit k = negative := by
    simp only [List.all_eq_true, List.mem_range, decide_eq_true_iff]
    constructor
    · intro hall k hk hlt
      have hi : k / 64 < g4Words v.width := by
        rw [g4Words]
        omega
      obtain hzero | heq := hall (k / 64) hi
      · omega
      · have := (hword _ hi).1 heq (k % 64) (by omega) (by omega)
        rwa [div_add_mod] at this
    · intro hall i hi
      by_cases hzero : i = 0
      · exact .inl hzero
      · exact .inr ((hword i hi).2 fun k hk hlt => hall _ (by omega) hlt)
  rw [hfirst, hrest]
  constructor
  · rintro ⟨h63, hall⟩ k hk hlt
    rcases Nat.eq_or_lt_of_le hk with rfl | hlt'
    · exact h63
    · exact hall k hlt' hlt
  · exact fun hall => ⟨hall 63 le_rfl (by omega), fun k hk hlt => hall k (by omega) hlt⟩

/-- The bits from `63` on show the sign exactly if the number fits a signed word. -/
lemma high_bits_iff (h : v.Canonical) :
    (∀ k, 63 ≤ k → k < v.width →
      v.aNat.testBit k = decide (v.isSigned = true ∧ v.aNat.testBit (v.width - 1) = true)) ↔
    -2 ^ 63 ≤ v.intAs v.isSigned ∧ v.intAs v.isSigned < 2 ^ 63 := by
  have hlt := h.aNat_lt
  have hcast : ((2 ^ v.width : ℕ) : ℤ) = 2 ^ v.width := by push_cast; rfl
  have hcut : ∀ x < 2 ^ v.width, (∀ k, 63 ≤ k → k < v.width → x.testBit k = false) ↔ x < 2 ^ 63 := by
    intro x hx
    constructor
    · intro hall
      refine lt_pow_two_of_testBit _ fun k hk => ?_
      rcases lt_or_ge k v.width with hkw | hkw
      · exact hall k hk hkw
      · exact testBit_beyond hx hkw
    · exact fun hsmall k hk _ =>
        testBit_beyond hsmall hk
  rw [intAs_eq h, ← hcast]
  by_cases hneg : v.isSigned = true ∧ v.aNat.testBit (v.width - 1) = true
  · -- the complement of a negative number is small
    have hcomplement := hcut (2 ^ v.width - (v.aNat + 1)) (by omega)
    simp only [testBit_two_pow_sub_succ hlt] at hcomplement
    rw [if_pos hneg, decide_eq_true hneg]
    refine Iff.trans ?_ (hcomplement.trans ?_)
    · refine forall_congr' fun k => imp_congr_right fun _ => imp_congr_right fun hk => ?_
      simp [hk]
    · omega
  · rw [if_neg hneg, decide_eq_false hneg, hcut _ hlt]
    omega

lemma toNat_getD_zero (v : G4) : (v.a.getD 0 0).toNat = v.aNat % 2 ^ 64 := by
  rw [G4.aNat]
  cases v.a with
  | nil => rfl
  | cons x =>
    rw [wordsNat_cons, add_mul_mod_self_left, mod_eq_of_lt x.isLt]
    rfl

/-- `g4_selection_index` reads the value as an integer if that fits a signed word. -/
lemma g4SelectionIndex_eq (h : v.Canonical) :
    g4SelectionIndex v = if v.bNat ≠ 0 then none else int64Of (v.intAs v.isSigned) := by
  have hlt := h.aNat_lt
  rw [g4SelectionIndex, if_congr h.isUnknown_iff rfl rfl]
  refine if_ctx_congr Iff.rfl (fun _ => rfl) fun hknown => ?_
  have hzero : v.bNat = 0 := not_not.1 hknown
  have hsign : (v.isSigned = true ∧ v.width ≠ 0 ∧ llgGmpSv4State v (v.width - 1) = 1) ↔
      v.isSigned = true ∧ v.aNat.testBit (v.width - 1) = true := by
    refine and_congr_right fun _ => ?_
    rcases Nat.eq_zero_or_pos v.width with hwidth | hpos
    · have hsmall : v.aNat = 0 := by rw [hwidth] at hlt; omega
      simp [hwidth, hsmall]
    · rw [llgGmpSv4State_eq v (by omega), G4.stateAt, hzero]
      have hne : v.width ≠ 0 := by omega
      cases v.aNat.testBit (v.width - 1) <;> simp [stateBit, bitCode, hne]
  have hword := toNat_getD_zero v
  have hlow : (if v.width ≠ 0 then v.a.getD 0 0 else 0) = v.a.getD 0 0 := by
    split_ifs with hwidth
    · rfl
    · have hsmall : v.aNat = 0 := by rw [not_not.1 hwidth] at hlt; omega
      exact (eq_of_toNat_eq (by rw [hword, hsmall]; rfl)).symm
  simp only [hsign, hlow]
  rcases lt_or_ge 64 v.width with hw | hw
  · have hfits := (high_words_iff h hw _).trans (high_bits_iff h)
    have hcast : ((2 ^ v.width : ℕ) : ℤ) = 2 ^ v.width := by push_cast; rfl
    have hpow : 2 ^ 64 ∣ 2 ^ v.width := Nat.pow_dvd_pow 2 hw.le
    rw [if_pos hw, int64Of]
    by_cases hrange : -2 ^ 63 ≤ v.intAs v.isSigned ∧ v.intAs v.isSigned < 2 ^ 63
    · obtain ⟨htop, hall⟩ := hfits.2 hrange
      rw [if_neg (by simpa using htop), if_pos hall, if_pos hrange, signedWord_eq,
        toInt_eq_toNat_cond, hword]
      rw [intAs_eq h, ← hcast] at hrange ⊢
      obtain ⟨c, hc⟩ := hpow
      refine congrArg some ?_
      split_ifs at hrange ⊢ <;> omega
    · rw [if_neg hrange]
      by_cases htop : (v.a.getD 0 0 >>> 63) ≠ 0 ↔
          decide (v.isSigned = true ∧ v.aNat.testBit (v.width - 1) = true) = true
      · rw [if_neg (by simpa using htop), if_neg fun hall => hrange (hfits.1 ⟨htop, hall⟩)]
      · rw [if_pos (by simpa using htop)]
  · have hsmall : v.smallA = v.a.getD 0 0 := by
      refine eq_of_toNat_eq ?_
      rw [h.toNat_smallA hw, hword, mod_eq_of_lt]
      exact hlt.trans_le (Nat.pow_le_pow_right (by decide) hw)
    have hindex := g4SelectionSmallIndex_eq h hw
    rw [if_neg hknown, g4SelectionSmallIndex, if_neg (mt (h.smallB_ne_zero hw).1 hknown), if_congr (signBit_small h hw) rfl rfl, hsmall] at hindex
    rw [← hindex, if_neg (by omega)]
    simp only [decide_eq_true_iff]

end Index

/-! ## Selections -/

/-- The selections: a bit, a part with the given bounds, and indexed parts, upwards from the base or
downwards from it. -/
inductive Selection
  | bit (index : ℕ)
  | part (left right : ℤ)
  | indexed (base width : ℕ) (negative : Bool)
  | indexedValue (base : G4) (width : ℕ) (negative : Bool)

namespace Selection

/-- The values that a selection is made with are canonical. -/
def Canonical : Selection → Prop
  | indexedValue base _ _ => base.Canonical
  | _ => True

/-- The number of selected bits. -/
def width : Selection → ℕ
  | bit _ => 1
  | part left right => (left - right).natAbs + 1
  | indexed _ width _ => width
  | indexedValue _ width _ => width

/-- The lowest position of an indexed part. -/
def indexedOrigin (base : ℤ) (width : ℕ) (negative : Bool) : ℤ :=
  base - if negative then (width : ℤ) - 1 else 0

/-- The position that bit `i` of the selection addresses; none for an index with unknown bits. -/
def position (i : ℕ) : Selection → Option ℤ
  | bit index => some (index + i)
  | part left right => some (if left ≥ right then right + i else right - i)
  | indexed base width negative => some (indexedOrigin base width negative + i)
  | indexedValue base width negative =>
    if base.bNat ≠ 0 then none
    else some (indexedOrigin (base.intAs base.isSigned) width negative + i)

/-- The position of the source that is written to bit `i` of the selection.  A part takes the source from
its left end. -/
def sourceBit (source : G4) (i : ℕ) : Selection → ℤ
  | part left right => source.width - ((left - right).natAbs + 1) + i
  | _ => i

/-- The runtime function that reads the selection. -/
def read (source : G4) : Selection → Option G4
  | bit index => some (llgGmpSv4BitSelect source index)
  | part left right => llgGmpSv4PartSelect source left right
  | indexed base width negative => llgGmpSv4IdxPartSelect source base width negative
  | indexedValue base width negative => llgGmpSv4IdxPartSelectValue source base width negative

/-- The runtime function that assigns to the selection. -/
def write (dst source : G4) : Selection → Option G4
  | bit index => llgGmpSv4BitSelectSet dst index source
  | part left right => llgGmpSv4PartSelectSet dst left right source
  | indexed base width negative => llgGmpSv4IdxPartSelectSet dst base width negative source
  | indexedValue base width negative => llgGmpSv4IdxPartSelectSetValue dst base width negative source

/-- The bits that the selection addresses, X without a position. -/
def addressed (sel : Selection) (source : G4) (i : ℕ) : Bit :=
  (sel.position i).elim .x source.bitAt

/-- `out` is `dst` with the addressed bits that lie in it replaced by the bits of `source`. -/
structure Assigns (sel : Selection) (dst source out : G4) : Prop where
  canonical : out.Canonical
  width : out.width = dst.width
  isSigned : out.isSigned = dst.isSigned
  written : ∀ i < sel.width, ∀ p < dst.width, sel.position i = some (p : ℤ) →
    out.stateAt p = source.bitAt (sel.sourceBit source i)
  kept : ∀ p < dst.width, (∀ i < sel.width, sel.position i ≠ some (p : ℤ)) →
    out.stateAt p = dst.stateAt p

end Selection

open Selection

variable {sel : Selection}

section Reads

variable {source base : G4} {width : ℕ}

lemma isSigned_llgGmpSv4Zero (w : ℕ) (s : Bool) : (llgGmpSv4Zero w s).isSigned = s := by
  rw [llgGmpSv4Zero, llgGmpSv4New]
  split_ifs <;> rfl

/-- A selection of the whole of a new value. -/
lemma yields_window_zero (source : G4) (low : ℤ) (width : ℕ) :
    Yields (llgGmpSv4Finish (g4CopyWindow (llgGmpSv4Zero width false) 0 source low width)) width false
      fun i => source.bitAt (low + i) := by
  have h := yields_copyWindow (llgGmpSv4Zero_shaped width false) 0 source low width
  rw [isSigned_llgGmpSv4Zero] at h
  refine h.congr fun i hi => ?_
  rw [overlay_of_mem (by omega), sub_zero]

lemma yields_reverse_zero (source : G4) (high : ℤ) (width : ℕ) :
    Yields (llgGmpSv4Finish (g4ReverseWindow (llgGmpSv4Zero width false) 0 source high width)) width false
      fun i => source.bitAt (high - i) := by
  have h := yields_reverseWindow (llgGmpSv4Zero_shaped width false) 0 source high width
  rw [isSigned_llgGmpSv4Zero] at h
  refine h.congr fun i hi => ?_
  rw [overlay_of_mem (by omega), sub_zero]

/-- The width of a part is checked. -/
lemma g4SelectionPartWidth_eq (left right : ℤ) :
    g4SelectionPartWidth left right =
      if (left - right).natAbs + 1 < llgGmpSupportedWidthLimit then some ((left - right).natAbs + 1) else none := by
  have hdelta : (if left ≥ right then (left - right).toNat else (right - left).toNat) =
      (left - right).natAbs := by
    split_ifs <;> omega
  rw [g4SelectionPartWidth, hdelta, g4SelectionWidth, llgGmpSupportedWidthLimit]
  split_ifs <;> first | rfl | omega

lemma llgGmpSv4PartSelect_reads (hsource : source.Canonical) {left right : ℤ}
    (hwidth : g4SelectionPartWidth left right = some width) :
    ∃ out, llgGmpSv4PartSelect source left right = some out ∧
      Yields out width false fun i => source.bitAt (if left ≥ right then right + i else right - i) := by
  have hpos := g4SelectionPartWidth_pos hwidth
  have hcount : (left - right).natAbs + 1 = width := by
    rw [g4SelectionPartWidth_eq] at hwidth
    split_ifs at hwidth
    exact some.inj hwidth
  rw [llgGmpSv4PartSelect, hwidth]
  simp only [bind_eq_bind, bind_some]
  by_cases hwide : source.width > 64 ∨ width > 64
  · rw [if_pos hwide, llgGmpSv4PartSelectWide]
    by_cases hdown : left ≥ right
    · simp only [if_pos hdown]
      exact ⟨_, rfl, yields_window_zero source right width⟩
    · simp only [if_neg hdown]
      exact ⟨_, rfl, yields_reverse_zero source right width⟩
  · rw [if_neg hwide]
    by_cases hdown : left ≥ right
    · simp only [if_pos hdown]
      exact ⟨_, rfl, yields_g4SelectionSmallWindow hsource (by omega) right (by omega)⟩
    · simp only [if_neg hdown]
      refine ⟨_, rfl, ((yields_g4SelectionSmallWindow hsource (by omega) left (by omega)).reverseSmall hpos
        (by omega)).congr fun i hi => ?_⟩
      congr 1
      omega

/-- The bits of an indexed part with the lowest position `low`. -/
def indexedBit (v : G4) (low : Option ℤ) (i : ℕ) : Bit := low.elim .x fun l => v.bitAt (l + i)

lemma yields_indexedSelect (source : G4) (low : Option ℤ) (width : ℕ) :
    Yields (indexedSelect source low width) width false (indexedBit source low) := by
  cases low with
  | some low => exact yields_window_zero source low width
  | none =>
    have hzero := llgGmpSv4Zero_shaped width false
    have h := (hzero.fillBits 0 2 id).yields_finish
    rw [isSigned_g4FillBits, isSigned_llgGmpSv4Zero] at h
    refine h.congr fun i hi => ?_
    rw [stateAt_g4FillBits hzero (by omega), if_pos (by omega)]
    rfl

/-- The lowest position, if the index fits a signed word and not all positions are negative. -/
def lowOf (index : ℤ) (width : ℕ) (negative : Bool) : Option ℤ :=
  (int64Of index).bind fun index => llgGmpSv4IndexedLow index width negative

lemma scalarLow_eq (base width : ℕ) (negative : Bool) : scalarLow base width negative = lowOf base width negative := by
  rw [scalarLow, lowOf, int64Of, int64Max]
  split_ifs <;> first | rfl | omega

lemma valueLow_eq (h : base.Canonical) (width : ℕ) (negative : Bool) :
    valueLow base width negative =
      if base.bNat ≠ 0 then none else lowOf (base.intAs base.isSigned) width negative := by
  rw [valueLow, g4SelectionIndex_eq h]
  split_ifs <;> rfl

variable {width : ℕ}

lemma eq_of_lowOf {index low : ℤ} {negative : Bool} (h : lowOf index width negative = some low) :
    low = indexedOrigin index width negative := by
  obtain ⟨index', hindex, hlow⟩ := bind_eq_some_iff.1 h
  rw [int64Of] at hindex
  split_ifs at hindex
  obtain rfl := some.inj hindex
  rw [llgGmpSv4IndexedLow] at hlow
  split_ifs at hlow with hnone hneg
  all_goals
    obtain rfl := some.inj hlow
    simp [indexedOrigin, hneg]

/-- Without a lowest position all positions are negative or large. -/
lemma outside_of_lowOf {index : ℤ} {negative : Bool} (h : lowOf index width negative = none)
    {i : ℕ} (hi : i < width) :
    indexedOrigin index width negative + i < 0 ∨ 2 ^ 63 - width < indexedOrigin index width negative + i := by
  rw [lowOf, int64Of] at h
  rw [indexedOrigin]
  by_cases hrange : -2 ^ 63 ≤ index ∧ index < 2 ^ 63
  · rw [if_pos hrange, bind_some, llgGmpSv4IndexedLow] at h
    split_ifs at h with hnone
    obtain ⟨hneg, hlt⟩ := hnone.resolve_left (by omega)
    rw [if_pos hneg]
    omega
  · split_ifs <;> omega

/-- The bits of an indexed part. -/
lemma indexedBit_lowOf (v : G4) (hv : v.width < llgGmpSupportedWidthLimit)
    (hwidth : width < llgGmpSupportedWidthLimit) (index : ℤ) (negative : Bool) {i : ℕ} (hi : i < width) :
    indexedBit v (lowOf index width negative) i = v.bitAt (indexedOrigin index width negative + i) := by
  rw [llgGmpSupportedWidthLimit] at hv hwidth
  cases hlow : lowOf index width negative with
  | none =>
    have hout := outside_of_lowOf hlow hi
    exact (bitAt_of_notMem (by omega)).symm
  | some =>
    rw [eq_of_lowOf hlow]
    rfl

/-- The narrow indexed selection. -/
lemma yields_narrow_indexed (hsource : source.Canonical) (hs : source.width ≤ 64) (hw : width ≤ 64)
    (low : Option ℤ) :
    Yields (low.elim (g4Small (allOnes 64) (allOnes 64) width false)
      fun low => g4SelectionSmallWindow source low width) width false (indexedBit source low) := by
  cases low with
  | none => exact yields_allOnes hw
  | some low => exact yields_g4SelectionSmallWindow hsource hs low hw

lemma llgGmpSv4IdxPartSelect_reads (hsource : source.Canonical) (base : ℕ)
    (hwidth : width < llgGmpSupportedWidthLimit) (negative : Bool) :
    ∃ out, llgGmpSv4IdxPartSelect source base width negative = some out ∧
      Yields out width false (indexedBit source (lowOf base width negative)) := by
  rw [llgGmpSv4IdxPartSelect, g4SelectionWidth, if_neg (by omega)]
  simp only [bind_eq_bind, bind_some]
  by_cases hwide : source.width > 64 ∨ width > 64
  · rw [if_pos hwide]
    refine ⟨_, rfl, ?_⟩
    rw [llgGmpSv4IdxPartSelectWide, scalarLow_eq]
    exact yields_indexedSelect _ _ _
  · rw [if_neg hwide]
    have hnarrow := yields_narrow_indexed hsource (by omega) (by omega : width ≤ 64)
      (lowOf base width negative)
    refine ⟨_, ?_, hnarrow⟩
    rw [← scalarLow_eq, scalarLow, llgGmpSv4IndexedLow]
    by_cases hnone : base > int64Max ∨ width = 0
    · rw [if_pos hnone]
      split_ifs <;> first | rfl | omega
    · have hle : base ≤ int64Max := by omega
      have hlow : ¬(width = 0 ∨ negative = true ∧ (base : ℤ) < 0) := by omega
      rw [if_neg hnone, if_pos hle, if_neg hlow]
      cases negative <;> simp

lemma llgGmpSv4IdxPartSelectValue_reads (hsource : source.Canonical) (hbase : base.Canonical)
    (hwidth : width < llgGmpSupportedWidthLimit) (negative : Bool) :
    ∃ out, llgGmpSv4IdxPartSelectValue source base width negative = some out ∧
      Yields out width false (indexedBit source
        (if base.bNat ≠ 0 then none else lowOf (base.intAs base.isSigned) width negative)) := by
  rw [llgGmpSv4IdxPartSelectValue, g4SelectionWidth, if_neg (by omega)]
  simp only [bind_eq_bind, bind_some]
  by_cases hwide : source.width > 64 ∨ base.width > 64 ∨ width > 64
  · rw [if_pos hwide]
    refine ⟨_, rfl, ?_⟩
    rw [llgGmpSv4IdxPartSelectValueWide, ← valueLow_eq hbase]
    exact yields_indexedSelect _ _ _
  · rw [if_neg hwide, g4SelectionSmallIndex_eq hbase (by omega)]
    have hnarrow := yields_narrow_indexed hsource (by omega) (by omega : width ≤ 64)
      (if base.bNat ≠ 0 then none else lowOf (base.intAs base.isSigned) width negative)
    refine ⟨_, ?_, hnarrow⟩
    by_cases hknown : base.bNat ≠ 0
    · rw [if_pos hknown, if_pos hknown]
      rfl
    · rw [if_neg hknown, if_neg hknown, lowOf]
      cases int64Of (base.intAs base.isSigned) with
      | none => rfl
      | some =>
        simp only [bind_some, llgGmpSv4IndexedLow]
        split_ifs <;> simp

end Reads

/-! ## Single bits -/

section Bits

variable {v : G4}

lemma stateOf_bitCode (b : Bit) : stateOf (bitCode b) = b := by cases b <;> rfl

lemma bitCode_le (b : Bit) : bitCode b ≤ 3 := by cases b <;> decide

/-- The state of a bit, X outside the value. -/
lemma llgGmpSv4State_bitAt (v : G4) (i : ℕ) : llgGmpSv4State v i = bitCode (v.bitAt i) := by
  by_cases hi : i < v.width
  · rw [llgGmpSv4State_eq v hi, bitAt_of_mem rfl hi]
  · rw [llgGmpSv4State, if_pos (by omega), bitAt_of_notMem (by omega)]
    rfl

lemma llgGmpSv4BitSelect_reads (source : G4) (index : ℕ) :
    Yields (llgGmpSv4BitSelect source index) 1 false fun i => source.bitAt (index + i) := by
  have hstate : (if index ≥ source.width then 2 else llgGmpSv4State source index) =
      bitCode (source.bitAt index) := by
    rw [← llgGmpSv4State_bitAt, llgGmpSv4State]
    split_ifs <;> rfl
  rw [llgGmpSv4BitSelect, hstate]
  refine yields_g4Small (by decide) fun i hi => ?_
  obtain rfl : i = 0 := by omega
  rw [cast_zero, add_zero]
  generalize source.bitAt index = b
  cases b <;> rfl

lemma patched_set {ws : Words} {word : ℕ} (hword : word < ws.length) (x : BitVec 64) :
    Patched (wordsNat ws) (wordsNat (ws.set word x)) (64 * word) 64 x.getLsbD := by
  intro i
  rw [testBit_wordsNat, testBit_wordsNat, List.getD_eq_getElem?_getD, List.getD_eq_getElem?_getD,
    List.getElem?_set]
  by_cases hi : word = i / 64
  · rw [if_pos hi, if_pos hword, if_pos (by omega), getD_some, show i - 64 * word = i % 64 by omega]
  · rw [if_neg hi, if_neg (by omega)]

/-- A word of a value is replaced. -/
lemma yields_llgGmpSv4SetVpiWord (h : v.Canonical) {word : ℕ} (hword : word < g4Words v.width)
    (aval bval : BitVec 64) :
    Yields (llgGmpSv4SetVpiWord v word aval bval) v.width v.isSigned fun i =>
      if i / 64 = word then stateBit (aval.getLsbD (i % 64)) (bval.getLsbD (i % 64)) else v.stateAt i := by
  rw [llgGmpSv4SetVpiWord, if_neg (by omega)]
  by_cases hw : v.width ≤ 64
  · rw [if_pos hw]
    refine ⟨putSmall_canonical hw (.and_right _ (below_g4Mask _)) (.and_right _ (below_g4Mask _)), rfl, rfl,
      fun i hi => ?_⟩
    rw [g4Words] at hword
    rw [if_pos (by omega), G4.putSmall, stateAt_singleton, show i % 64 = i by omega]
    simp only [getLsbD_and, getLsbD_g4Mask, decide_eq_true (show i < v.width ∧ i < 64 by omega),
      Bool.and_true]
  rw [if_neg hw, llgGmpSv4SetAbWide]
  generalize hmask : wordMask v.width (g4Words v.width) word = mask
  have hkeep : ∀ i < v.width, i / 64 = word → mask.getLsbD (i % 64) = true := fun i hi hword' => by
    rw [← hmask, getLsbD_wordMask hword (by omega)]
    exact decide_eq_true (by omega)
  generalize hd : (if bval &&& mask ≠ 0 then llgGmpSv4Promote v else v) = d
  have hshaped : d.Shaped v.width := hd ▸ G4.Shaped.ite h.shaped.promote h.shaped
  have hstate : d.isSigned = v.isSigned ∧ ∀ i, d.stateAt i = v.stateAt i := by
    rw [← hd]
    split_ifs
    · exact ⟨(promote_planes v).2.2, stateAt_promote v⟩
    · exact ⟨rfl, fun _ => rfl⟩
  have hnone : d.b = none → ∀ k < 64, (bval &&& mask).getLsbD k = false := by
    intro hb k _
    by_cases hzero : bval &&& mask ≠ 0
    · rw [if_pos hzero] at hd
      exact absurd (hd ▸ hb) (promote_b_ne_none (by omega))
    · rw [not_not.1 hzero]
      simp
  have hlength : crWords v.width = g4Words v.width := crWords_of_pos (by omega)
  have hpatch := stateAt_patch (d := d) (a := d.a.set word (aval &&& mask))
    (f := fun b => b.set word (bval &&& mask)) (patched_set (by rw [hshaped.length_a, hlength]; exact hword) _)
    (fun b hb => patched_set (by rw [hshaped.length_b b hb, hlength]; exact hword) _) hnone
  have hfinish := (hshaped.setWord (by omega) word (aval &&& mask) (bval &&& mask)).yields_finish
  rw [← hstate.1]
  refine hfinish.congr fun i hi => ?_
  rw [hpatch, hstate.2 i]
  by_cases hin : i / 64 = word
  · rw [if_pos (by omega), if_pos hin, show i - 64 * word = i % 64 by omega, getLsbD_and,
      getLsbD_and, hkeep i hi hin, Bool.and_true, Bool.and_true]
  · rw [if_neg (by omega), if_neg hin]

/-- One bit of a value is replaced. -/
lemma yields_llgGmpSv4SetState (h : v.Canonical) {bit : ℕ} (hbit : bit < v.width) (b : Bit) :
    ∃ out, llgGmpSv4SetState v bit (bitCode b) = some out ∧
      Yields out v.width v.isSigned fun i => if i = bit then b else v.stateAt i := by
  have hle := bitCode_le b
  rw [llgGmpSv4SetState, if_neg (by omega), if_neg (by omega)]
  refine ⟨_, rfl, (yields_llgGmpSv4SetVpiWord h (by rw [g4Words]; omega) _ _).congr fun i hi => ?_⟩
  have hmask : ∀ k < 64, (1#64 <<< (bit % 64)).getLsbD k = decide (k = bit % 64) := fun k hk => by
    rw [getLsbD_shiftLeft, getLsbD_one]
    rw [Bool.eq_iff_iff]
    simp only [Bool.and_eq_true, Bool.not_eq_true', decide_eq_true_iff, decide_eq_false_iff_not]
    omega
  have hword : ∀ (x : BitVec 64) (set : Prop) [Decidable set],
      ((x &&& ~~~(1#64 <<< (bit % 64))) ||| if set then 1#64 <<< (bit % 64) else 0).getLsbD (i % 64) =
        if i % 64 = bit % 64 then decide set else x.getLsbD (i % 64) := by
    intro x set _
    rw [getLsbD_or, getLsbD_and, getLsbD_not, getLsbD_ite_zero, hmask _ (by omega)]
    split_ifs with hk <;> simp [hk, show i % 64 < 64 by omega]
  by_cases hlimb : i / 64 = bit / 64
  · rw [if_pos hlimb, hword, hword]
    by_cases hk : i % 64 = bit % 64
    · rw [if_pos hk, if_pos hk, if_pos (by omega)]
      exact stateOf_bitCode b
    · rw [if_neg hk, if_neg hk, if_neg (by omega), G4.stateAt, bNat_eq_wordsNat, G4.aNat, testBit_wordsNat,
        testBit_wordsNat, hlimb]
  · rw [if_neg hlimb, if_neg (by rintro rfl; exact hlimb rfl)]

end Bits

/-! ## Assignments -/

section Writes

variable {dst source base : G4} {width : ℕ}

/-- An upward window of the source over a window of the target. -/
lemma assigns_of_overlay {out : G4} (low sourceLow : ℤ) (h : Yields out dst.width dst.isSigned
      (overlay dst.stateAt low sel.width fun k => source.bitAt (sourceLow + k)))
    (hposition : ∀ i, sel.position i = some (low + i))
    (hsource : ∀ i, sel.sourceBit source i = sourceLow + i) : sel.Assigns dst source out where
  canonical := h.canonical
  width := h.width
  isSigned := h.isSigned
  written i hi p hp hpos := by
    have hp' : (p : ℤ) = low + i := some.inj ((hposition i).symm.trans hpos).symm
    rw [h.stateAt p hp, overlay_of_mem (by omega), hsource]
    congr 1
    omega
  kept p hp hnone := by
    rw [h.stateAt p hp, overlay_of_notMem]
    intro hin
    refine hnone (p - low).toNat (by omega) ?_
    rw [hposition]
    congr 1
    omega

/-- A downward window of the source over a window of the target. -/
lemma assigns_of_reverse {out : G4} (low sourceHigh : ℤ) (h : Yields out dst.width dst.isSigned
      (overlay dst.stateAt low sel.width fun k => source.bitAt (sourceHigh - k)))
    (hposition : ∀ i, sel.position i = some (low + (sel.width - 1 : ℤ) - i))
    (hsource : ∀ i, sel.sourceBit source i = sourceHigh - (sel.width - 1 : ℤ) + i) :
    sel.Assigns dst source out where
  canonical := h.canonical
  width := h.width
  isSigned := h.isSigned
  written i hi p hp hpos := by
    have hp' : (p : ℤ) = low + (sel.width - 1 : ℤ) - i :=
      some.inj ((hposition i).symm.trans hpos).symm
    rw [h.stateAt p hp, overlay_of_mem (by omega), hsource]
    congr 1
    omega
  kept p hp hnone := by
    rw [h.stateAt p hp, overlay_of_notMem]
    intro hin
    refine hnone (low + (sel.width - 1 : ℤ) - p).toNat (by omega) ?_
    rw [hposition]
    congr 1
    omega

/-- A target that none of the positions lies in is left as it is. -/
lemma assigns_self (hdst : dst.Canonical)
    (h : ∀ i < sel.width, ∀ p < dst.width, sel.position i ≠ some (p : ℤ)) : sel.Assigns dst source dst where
  canonical := hdst
  width := rfl
  isSigned := rfl
  written i hi p hp hpos := absurd hpos (h i hi p hp)
  kept _ _ _ := rfl

lemma llgGmpSv4BitSelectSet_writes (hdst : dst.Canonical) (index : ℕ) :
    ∃ out, llgGmpSv4BitSelectSet dst index source = some out ∧ (Selection.bit index).Assigns dst source out := by
  rw [llgGmpSv4BitSelectSet]
  by_cases hin : index < dst.width
  · obtain ⟨out, hout, hyields⟩ := yields_llgGmpSv4SetState hdst hin (source.bitAt (0 : ℕ))
    rw [if_pos hin, llgGmpSv4State_bitAt]
    refine ⟨out, hout, assigns_of_overlay index 0 (hyields.congr fun i hi => ?_)
      (fun i => rfl) fun i => (zero_add _).symm⟩
    by_cases hi : i = index
    · rw [if_pos hi, overlay_of_mem (by simp only [Selection.width]; omega), hi]
      simp
    · rw [if_neg hi, overlay_of_notMem (by simp only [Selection.width]; omega)]
  · rw [if_neg hin]
    refine ⟨dst, rfl, assigns_self hdst fun i hi p hp hpos => ?_⟩
    have := some.inj hpos
    omega

lemma llgGmpSv4PartSelectSet_writes (hdst : dst.Canonical) (hsource : source.Canonical) {left right : ℤ}
    (hwidth : g4SelectionPartWidth left right = some width) :
    ∃ out, llgGmpSv4PartSelectSet dst left right source = some out ∧
      (part left right).Assigns dst source out := by
  have hcount : (left - right).natAbs + 1 = width := by
    rw [g4SelectionPartWidth_eq] at hwidth
    split_ifs at hwidth
    exact some.inj hwidth
  rw [llgGmpSv4PartSelectSet, hwidth]
  simp only [bind_eq_bind, bind_some]
  by_cases hdown : left ≥ right
  · -- the source ends at the left bound
    have hassigns : ∀ {out}, Yields out dst.width dst.isSigned (overlay dst.stateAt right width
        fun k => source.bitAt ((source.width : ℤ) - width + k)) → (part left right).Assigns dst source out := by
      rintro out hout
      refine assigns_of_overlay right ((source.width : ℤ) - width) ?_
        (fun i => by simp [position, hdown]) fun i => ?_
      · rwa [Selection.width, hcount]
      · rw [sourceBit, ← hcount]
        push_cast
        ring
    by_cases hwide : dst.width > 64 ∨ source.width > 64
    · rw [if_pos hwide, llgGmpSv4PartSelectSetWide, if_pos hdown]
      exact ⟨_, rfl, hassigns (yields_copyWindow hdst.shaped right source _ width)⟩
    · rw [if_neg hwide, if_pos hdown]
      exact ⟨_, rfl, hassigns (yields_g4SelectionSmallWrite hdst (by omega) hsource (by omega) right _ width)⟩
  · have hassigns : ∀ {out}, Yields out dst.width dst.isSigned (overlay dst.stateAt left width
        fun k => source.bitAt ((source.width : ℤ) - 1 - k)) → (part left right).Assigns dst source out := by
      rintro out hout
      refine assigns_of_reverse left ((source.width : ℤ) - 1) ?_
        (fun i => ?_) fun i => ?_
      · rwa [Selection.width, hcount]
      · simp only [position, if_neg hdown, Selection.width, some.injEq]
        omega
      · rw [sourceBit, Selection.width]
        push_cast
        ring
    by_cases hwide : dst.width > 64 ∨ source.width > 64
    · rw [if_pos hwide, llgGmpSv4PartSelectSetWide, if_neg hdown]
      exact ⟨_, rfl, hassigns (yields_reverseWindow hdst.shaped left source _ width)⟩
    rw [if_neg hwide, if_neg hdown]
    by_cases hnone : dst.width = 0 ∨ right < 0 ∨ left ≥ dst.width
    · rw [if_pos hnone]
      refine ⟨dst, rfl, hassigns (hdst.yields.congr fun i hi => ?_)⟩
      rw [overlay_of_notMem (by omega)]
    rw [if_neg hnone]
    refine ⟨_, rfl, hassigns ?_⟩
    generalize hstart : (if left < 0 then 0 else left) = start
    generalize hlast : (if right ≥ dst.width then (dst.width : ℤ) - 1 else right) = last
    have hstart' : start = max 0 left := by
      rw [← hstart]
      split_ifs <;> omega
    have hlast' : last = min right (dst.width - 1) := by
      rw [← hlast]
      split_ifs <;> omega
    generalize hcount' : (last - start + 1).toNat = count
    have hbits := (yields_g4SelectionSmallWindow hsource (by omega)
      ((source.width : ℤ) - (last - left + 1)) (by omega : count ≤ 64)).reverseSmall (by omega) (by omega)
    refine (yields_g4SelectionSmallWrite hdst (by omega) hbits.canonical (by rw [hbits.width]; omega) start 0
      count).congr fun p hp => ?_
    by_cases hin : start ≤ p ∧ (p : ℤ) < start + count
    · rw [overlay_of_mem hin, overlay_of_mem (by omega),
        bitAt_of_mem (k := (p - start).toNat) (by omega) (by rw [hbits.width]; omega),
        hbits.stateAt _ (by omega)]
      congr 1
      omega
    · rw [overlay_of_notMem hin, overlay_of_notMem (by omega)]

/-- What an assignment leaves; the positions are those of the selection if the target is supported. -/
def Selection.Writes (sel : Selection) (dst source out : G4) : Prop :=
  out.Canonical ∧ (dst.width < llgGmpSupportedWidthLimit → sel.Assigns dst source out)

variable (source) in
/-- An assignment at the lowest position, if there is one. -/
lemma writes_lowOf (sel : Selection) (index : ℤ) (negative : Bool) (write : ℤ → G4)
    (hdst : dst.Canonical) (hwidth : sel.width < llgGmpSupportedWidthLimit)
    (hposition : ∀ i, sel.position i = some (indexedOrigin index sel.width negative + i))
    (hsource : ∀ i, sel.sourceBit source i = i)
    (hwrite : ∀ low, Yields (write low) dst.width dst.isSigned
      (overlay dst.stateAt low sel.width fun k => source.bitAt (0 + k))) :
    sel.Writes dst source ((lowOf index sel.width negative).elim dst write) := by
  cases hlow : lowOf index sel.width negative with
  | none =>
    refine ⟨hdst, fun hwide => assigns_self hdst fun i hi p hp hpos => ?_⟩
    rw [llgGmpSupportedWidthLimit] at hwide hwidth
    have hp' : (p : ℤ) = indexedOrigin index sel.width negative + i :=
      some.inj ((hposition i).symm.trans hpos).symm
    have hout := outside_of_lowOf hlow hi
    omega
  | some low =>
    refine ⟨(hwrite low).canonical, fun _ => assigns_of_overlay _ _ (hwrite low) (fun i => ?_)
      fun i => (hsource i).trans (zero_add _).symm⟩
    rw [hposition, eq_of_lowOf hlow]

lemma indexedWrite_eq (low : Option ℤ) :
    indexedWrite dst low width source =
      low.elim dst fun low => llgGmpSv4Finish (g4CopyWindow dst low source 0 width) := by
  cases low <;> rfl

lemma llgGmpSv4IdxPartSelectSet_writes (hdst : dst.Canonical) (hsource : source.Canonical)
    (base : ℕ) (hwidth : width < llgGmpSupportedWidthLimit) (negative : Bool) :
    ∃ out, llgGmpSv4IdxPartSelectSet dst base width negative source = some out ∧
      (indexed base width negative).Writes dst source out := by
  have hassigns := fun write => writes_lowOf source (indexed base width negative) base negative write hdst
    hwidth (fun _ => rfl) fun _ => rfl
  rw [llgGmpSv4IdxPartSelectSet, g4SelectionWidth, if_neg (by omega)]
  simp only [bind_eq_bind, bind_some]
  by_cases hlarge : dst.width > 64 ∨ source.width > 64
  · rw [if_pos hlarge, llgGmpSv4IdxPartSelectSetWide, indexedWrite_eq, scalarLow_eq]
    exact ⟨_, rfl, hassigns _ fun low => yields_copyWindow hdst.shaped low source 0 width⟩
  · refine ⟨_, ?_, hassigns _ fun low =>
      yields_g4SelectionSmallWrite hdst (by omega) hsource (by omega) low 0 width⟩
    rw [if_neg hlarge, Selection.width, ← scalarLow_eq, scalarLow, llgGmpSv4IndexedLow]
    by_cases hin : base ≤ int64Max ∧ width ≠ 0
    · have hlow : ¬(width = 0 ∨ negative = true ∧ (base : ℤ) < 0) := by omega
      rw [if_pos hin, if_pos hin.1, if_neg hlow]
      cases negative <;> simp
    · rw [if_neg hin]
      split_ifs <;> first | rfl | omega

lemma llgGmpSv4IdxPartSelectSetValue_writes (hdst : dst.Canonical) (hsource : source.Canonical)
    (hbase : base.Canonical) (hwidth : width < llgGmpSupportedWidthLimit) (negative : Bool) :
    ∃ out, llgGmpSv4IdxPartSelectSetValue dst base width negative source = some out ∧
      (indexedValue base width negative).Writes dst source out := by
  rw [llgGmpSv4IdxPartSelectSetValue, g4SelectionWidth, if_neg (by omega)]
  simp only [bind_eq_bind, bind_some]
  by_cases hknown : base.bNat ≠ 0
  · -- without a position nothing is written
    have hself : (indexedValue base width negative).Assigns dst source dst :=
      assigns_self hdst fun i _ p _ hpos => by simp [position, hknown] at hpos
    refine ⟨dst, ?_, hdst, fun _ => hself⟩
    by_cases hlarge : dst.width > 64 ∨ source.width > 64 ∨ base.width > 64
    · rw [if_pos hlarge, llgGmpSv4IdxPartSelectSetValueWide, valueLow_eq hbase, if_pos hknown]
      rfl
    · rw [if_neg hlarge, g4SelectionSmallIndex_eq hbase (by omega), if_pos hknown]
      rfl
  have hassigns := fun write => writes_lowOf source (indexedValue base width negative)
    (base.intAs base.isSigned) negative write hdst hwidth (fun _ => if_neg hknown) fun _ => rfl
  by_cases hlarge : dst.width > 64 ∨ source.width > 64 ∨ base.width > 64
  · rw [if_pos hlarge, llgGmpSv4IdxPartSelectSetValueWide, indexedWrite_eq, valueLow_eq hbase, if_neg hknown]
    exact ⟨_, rfl, hassigns _ fun low => yields_copyWindow hdst.shaped low source 0 width⟩
  · refine ⟨_, ?_, hassigns _ fun low =>
      yields_g4SelectionSmallWrite hdst (by omega) hsource (by omega) low 0 width⟩
    rw [if_neg hlarge, g4SelectionSmallIndex_eq hbase (by omega), if_neg hknown, Selection.width, lowOf]
    cases int64Of (base.intAs base.isSigned) with
    | none => rfl
    | some index =>
      simp only [bind_some, llgGmpSv4IndexedLow]
      by_cases hin : width ≠ 0 ∧ ¬(negative = true ∧ index < 0)
      · have hlow : ¬(width = 0 ∨ negative = true ∧ index < 0) := not_or.2 hin
        rw [if_pos hin, if_neg hlow]
        cases negative <;> simp
      · have hlow : width = 0 ∨ negative = true ∧ index < 0 := not_not.1 (mt not_or.1 hin)
        rw [if_neg hin, if_pos hlow]
        rfl

end Writes

/-! ## Reading and writing -/

/-- A selection whose width is supported has a value, whose bits are those addressed in a supported source. -/
lemma Selection.read_yields {source : G4} (hsource : source.Canonical) (hsel : sel.Canonical)
    (hwidth : sel.width < llgGmpSupportedWidthLimit) :
    ∃ out f, sel.read source = some out ∧ Yields out sel.width false f ∧
      (source.width < llgGmpSupportedWidthLimit → ∀ i < sel.width, f i = sel.addressed source i) := by
  cases sel with
  | bit index => exact ⟨_, _, rfl, llgGmpSv4BitSelect_reads source index, fun _ _ _ => rfl⟩
  | part left right =>
    obtain ⟨out, hout, hyields⟩ :=
      llgGmpSv4PartSelect_reads hsource ((g4SelectionPartWidth_eq left right).trans (if_pos hwidth))
    exact ⟨out, _, hout, hyields, fun _ _ _ => rfl⟩
  | indexed base width negative =>
    obtain ⟨out, hout, hyields⟩ := llgGmpSv4IdxPartSelect_reads hsource base hwidth negative
    exact ⟨out, _, hout, hyields, fun hwide i hi => indexedBit_lowOf source hwide hwidth base negative hi⟩
  | indexedValue base width negative =>
    obtain ⟨out, hout, hyields⟩ := llgGmpSv4IdxPartSelectValue_reads hsource hsel hwidth negative
    refine ⟨out, _, hout, hyields, fun hwide i hi => ?_⟩
    rw [addressed, position]
    split_ifs
    · rfl
    · exact indexedBit_lowOf source hwide hwidth _ negative hi

lemma selection_reads {source : G4} (hsource : source.Canonical)
    (hwide : source.width < llgGmpSupportedWidthLimit) (hsel : sel.Canonical)
    (hwidth : sel.width < llgGmpSupportedWidthLimit) :
    ∃ out, sel.read source = some out ∧ Yields out sel.width false (sel.addressed source) := by
  obtain ⟨out, f, hout, hyields, hf⟩ := read_yields hsource hsel hwidth
  exact ⟨out, hout, hyields.congr (hf hwide)⟩

/-- An assignment to a selection whose width is supported writes the addressed bits. -/
lemma selection_writes {dst source : G4} (hdst : dst.Canonical) (hsource : source.Canonical)
    (hsel : sel.Canonical) (hwidth : sel.width < llgGmpSupportedWidthLimit) :
    ∃ out, sel.write dst source = some out ∧ sel.Writes dst source out := by
  cases sel with
  | bit index =>
    obtain ⟨out, hout, hassigns⟩ := llgGmpSv4BitSelectSet_writes hdst index
    exact ⟨out, hout, hassigns.canonical, fun _ => hassigns⟩
  | part left right =>
    obtain ⟨out, hout, hassigns⟩ := llgGmpSv4PartSelectSet_writes hdst hsource
      ((g4SelectionPartWidth_eq left right).trans (if_pos hwidth))
    exact ⟨out, hout, hassigns.canonical, fun _ => hassigns⟩
  | indexed base width negative => exact llgGmpSv4IdxPartSelectSet_writes hdst hsource base hwidth negative
  | indexedValue base width negative =>
    exact llgGmpSv4IdxPartSelectSetValue_writes hdst hsource hsel hwidth negative

/-! ## Constant indices -/

/-- `known_select_index` (`opt/passes/identities.rs`). -/
def knownSelectIndex (index : G4) : Option ℤ :=
  if index.bNat ≠ 0 then none else int64Of (index.intAs index.isSigned)

/-- The rule of `try_identity` for an indexed part: a constant index that leaves no position below zero gives
constant bounds. -/
def Selection.tryIdentity : Selection → Selection
  | indexedValue index width negative =>
    match knownSelectIndex index with
    | some i =>
      let low := indexedOrigin i width negative
      if 0 < width ∧ 0 ≤ low ∧ low + (width - 1) ≤ int64Max then part (low + (width - 1)) low
      else indexedValue index width negative
    | none => indexedValue index width negative
  | sel => sel

/-- The indices for which the rule applies. -/
lemma tryIdentity_indexed (index : G4) (width : ℕ) (negative : Bool) :
    let i := index.intAs index.isSigned
    let low := indexedOrigin i width negative
    (indexedValue index width negative).tryIdentity =
      if index.bNat = 0 ∧ (-2 ^ 63 ≤ i ∧ i < 2 ^ 63) ∧ 0 < width ∧ 0 ≤ low ∧ low + (width - 1) ≤ int64Max then
        part (low + (width - 1)) low
      else indexedValue index width negative := by
  dsimp only
  rw [tryIdentity, knownSelectIndex, int64Of]
  by_cases hknown : index.bNat = 0
  · rw [if_neg (not_not.2 hknown)]
    by_cases hfits : -2 ^ 63 ≤ index.intAs index.isSigned ∧ index.intAs index.isSigned < 2 ^ 63
    · rw [if_pos hfits, if_congr ((and_iff_right hknown).trans (and_iff_right hfits)) rfl rfl]
    · rw [if_neg hfits, if_neg fun h => hfits h.2.1]
  · rw [if_pos hknown, if_neg fun h => hknown h.1]

lemma tryIdentity_addresses (hsel : sel.Canonical) : sel.tryIdentity.Canonical ∧
    sel.tryIdentity.width = sel.width ∧ ∀ i, sel.tryIdentity.position i = sel.position i := by
  cases sel with
  | indexedValue index width negative =>
    rw [tryIdentity_indexed]
    split_ifs with happlies
    · refine ⟨trivial, ?_, fun i => ?_⟩
      · simp only [Selection.width]
        omega
      · rw [position, position, if_neg (not_not.2 happlies.1), if_pos (by omega)]
    · exact ⟨hsel, rfl, fun _ => rfl⟩
  | _ => exact ⟨trivial, rfl, fun _ => rfl⟩

/-- The part with constant bounds reads the same value, also where it reaches beyond the source.  An index that is
unknown or beyond 64 bits and positions below zero or above `int64Max` are left as they are. -/
theorem tryIdentity_read {source : G4} (hsource : source.Canonical)
    (hwide : source.width < llgGmpSupportedWidthLimit) (hsel : sel.Canonical)
    (hwidth : sel.width < llgGmpSupportedWidthLimit) :
    sel.tryIdentity.read source = sel.read source ∧
    ∀ index width negative, sel = indexedValue index width negative →
      let i := index.intAs index.isSigned
      let low := indexedOrigin i width negative
      sel.tryIdentity =
        if index.bNat = 0 ∧ (-2 ^ 63 ≤ i ∧ i < 2 ^ 63) ∧ 0 < width ∧ 0 ≤ low ∧ low + (width - 1) ≤ int64Max then
          part (low + (width - 1)) low
        else sel := by
  refine ⟨?_, fun index width negative heq => heq ▸ tryIdentity_indexed index width negative⟩
  obtain ⟨hcanonical, hsame, hposition⟩ := tryIdentity_addresses hsel
  obtain ⟨out, hout, hyields⟩ := selection_reads hsource hwide hsel hwidth
  obtain ⟨out', hout', hyields'⟩ := selection_reads hsource hwide hcanonical (hsame ▸ hwidth)
  rw [hsame] at hyields'
  have heq : out' = out := hyields'.unique (hyields.congr fun i _ => by rw [addressed, addressed, hposition])
  rw [hout, hout', heq]

/-- Eight bits from index 9 downwards, of a value of five bits. -/
theorem tryIdentity_read_beyond : llgGmpSv4PartSelect (g4Small 22 0 5 false) 9 2 =
    llgGmpSv4IdxPartSelectValue (g4Small 22 0 5 false) (g4Small 9 0 4 false) 8 true :=
  (@tryIdentity_read (indexedValue (g4Small 9 0 4 false) 8 true) _ (g4Small_ok (w := 5) (by decide) ..)
    (by decide) (g4Small_ok (w := 4) (by decide) ..) (by decide)).1

end Lapligence.Value
