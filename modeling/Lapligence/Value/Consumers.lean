import Lapligence.Value.Assembly
import Mathlib.Data.BitVec

/-!
# Construction, imports and in-place updates

The constructors of `value_gmp/storage.c` and `backend.h`, the imports of foreign words and the primitives
that the runtime uses to update a value in place (`consumer_bridge.c`, `consumer_inline.h`).
-/

namespace Lapligence.Value

open WordLists Constraints List

/-! ## The functions -/

/-- `llg_gmp_sv4_from_u64`. -/
def llgGmpSv4FromU64 (bits : BitVec 64) (width : ℕ) (sign : Bool) : G4 :=
  if width ≤ 64 then g4Small bits 0 width sign
  else
    let v := llgGmpSv4Zero width sign
    { v with a := v.a.set 0 bits }

/-- `llg_gmp_sv4_from_masks`. -/
def llgGmpSv4FromMasks (bits x z : BitVec 64) (width : ℕ) (sign : Bool) : Option G4 :=
  if width > 64 then none else some (g4Small ((bits &&& ~~~(x ||| z)) ||| x) (x ||| z) width sign)

/-- `llg_gmp_sv4_from_limbs_wide`; an array that is not given is empty. -/
def llgGmpSv4FromLimbsWide (bits x z : Words) (width : ℕ) (sign : Bool) : G4 :=
  let n := g4Words width
  let unknown := (range n).any fun i => (x.getD i 0 ||| z.getD i 0) &&& wordMask width n i ≠ 0
  let out := llgGmpSv4New width sign unknown
  llgGmpSv4Finish { out with
    a := out.a.mapIdx fun i _ => (bits.getD i 0 &&& ~~~(x.getD i 0 ||| z.getD i 0)) ||| x.getD i 0
    b := out.b.map fun b => b.mapIdx fun i _ => x.getD i 0 ||| z.getD i 0 }

/-- `llg_gmp_sv4_from_limbs`. -/
def llgGmpSv4FromLimbs (bits x z : Words) (width : ℕ) (sign : Bool) : Option G4 :=
  if width > 64 then some (llgGmpSv4FromLimbsWide bits x z width sign)
  else
    let word := fun limbs : Words => if width ≠ 0 then limbs.getD 0 0 else 0
    llgGmpSv4FromMasks (word bits) (word x) (word z) width sign

/-- `llg_gmp_sv4_cast`. -/
def llgGmpSv4Cast (v : G4) (width : ℕ) (sign : Bool) : G4 := v.convert width sign v.isSigned

/-- `llg_gmp_sv4_from_i64`. -/
def llgGmpSv4FromI64 (bits : BitVec 64) (width : ℕ) : G4 := llgGmpSv4Cast (g4Small bits 0 64 true) width true

/-- `llg_gmp_sv4_two_state_wide`. -/
def llgGmpSv4TwoStateWide (v : G4) : G4 :=
  match v.b with
  | none => ⟨v.width, v.isSigned, v.a, none⟩
  | some b => ⟨v.width, v.isSigned, zipWith (fun a b => a &&& ~~~b) v.a b, none⟩

/-- `llg_gmp_sv4_to_two_state`. -/
def llgGmpSv4ToTwoState (v : G4) : G4 :=
  if v.width ≤ 64 then g4Small (v.smallA &&& ~~~v.smallB) 0 v.width v.isSigned else llgGmpSv4TwoStateWide v

/-- `llg_gmp_sv4_copy`: storage of the same shape is written in place. -/
def llgGmpSv4Copy (v source : G4) : G4 :=
  if v.width ≤ 64 ∧ source.width ≤ 64 then source
  else if v.width > 64 ∧ source.width = v.width ∧ v.b.isSome = source.b.isSome then
    { v with a := source.a, b := source.b, isSigned := source.isSigned }
  else source

/-- `llg_gmp_sv4_word_range`. -/
def llgGmpSv4WordRange (v : G4) (first count : ℕ) : ℕ :=
  let n := g4Words v.width
  if first ≥ n then 0 else if count < n - first then count else n - first

/-- `count` words of a plane from `first` on are replaced. -/
def putWords (first count : ℕ) (words : ℕ → BitVec 64) (plane : Words) : Words :=
  plane.mapIdx fun i old => if first ≤ i ∧ i < first + count then words (i - first) else old

/-- The loops of the imports: `count` words of both planes, with a promotion if one is unknown. -/
def importRange (v : G4) (first count : ℕ) (a b : ℕ → BitVec 64) : G4 :=
  if count = 0 then v
  else
    let v := if (range count).any (b · ≠ 0) then llgGmpSv4Promote v else v
    llgGmpSv4Finish { v with a := putWords first count a v.a, b := v.b.map (putWords first count b) }

/-- `llg_gmp_sv4_import_vpi_words`; the words of the input are pairs of `aval` and `bval`. -/
def llgGmpSv4ImportVpiWords (v : G4) (first : ℕ) (input : List (BitVec 64 × BitVec 64)) : G4 :=
  let count := llgGmpSv4WordRange v first input.length
  if v.width > 64 then importRange v first count (fun i => (input.getD i 0).1) fun i => (input.getD i 0).2
  else if count ≠ 0 then llgGmpSv4SetVpiWord v 0 (input.getD 0 0).1 (input.getD 0 0).2
  else v

/-- `llg_gmp_sv4_word_t`. -/
structure StateWord where
  bits : BitVec 64
  x : BitVec 64
  z : BitVec 64

/-- `llg_gmp_sv4_import_words`. -/
def llgGmpSv4ImportWords (v : G4) (first : ℕ) (input : List StateWord) : G4 :=
  let count := llgGmpSv4WordRange v first input.length
  let word := fun i => input.getD i ⟨0, 0, 0⟩
  if v.width > 64 then
    importRange v first count (fun i => ((word i).bits &&& ~~~((word i).x ||| (word i).z)) ||| (word i).x)
      fun i => (word i).x ||| (word i).z
  else if count ≠ 0 then llgGmpSv4SetWord v 0 (word 0).bits (word 0).x (word 0).z
  else v

/-- Half a word is replaced. -/
def putHalf (plane : Words) (i : ℕ) (value : BitVec 32) : Words :=
  let shift := i % 2 * 32
  putWord plane (i / 2) (0xffffffff#64 <<< shift) (value.zeroExtend 64 <<< shift)

/-- `llg_gmp_sv4_import_vpi32`; the records of the input are pairs of `aval` and `bval`. -/
def llgGmpSv4ImportVpi32 (v : G4) (input : List (BitVec 32 × BitVec 32)) : G4 :=
  let available := (v.width + 31) / 32
  let count := if input.length > available then available else input.length
  if count = 0 then v
  else
    let unknown := fun i =>
      let remaining := v.width - i * 32
      (input.getD i 0).2.zeroExtend 64 &&& g4Mask (if remaining < 32 then remaining else 32) ≠ 0
    let v := if v.width > 64 ∧ v.b.isNone ∧ (range count).any unknown then llgGmpSv4Promote v else v
    llgGmpSv4Finish { v with
      a := (range count).foldl (fun plane i => putHalf plane i (input.getD i 0).1) v.a
      b := v.b.map fun b => (range count).foldl (fun plane i => putHalf plane i (input.getD i 0).2) b }

/-- `masked_write`.  A target that shares the storage of the source is left as it is. -/
def maskedWrite (target source mask : G4) (shared clipped : Bool) : G4 :=
  if shared then target
  else
    let width := if clipped ∧ target.width > source.width then source.width else target.width
    let n := min (min (g4Words width) (g4Words source.width)) (g4Words mask.width)
    let selected := fun i =>
      let selected := mask.a.getD i 0 &&& ~~~mask.wordsB.getD i 0
      if clipped ∧ i + 1 = n ∧ n = g4Words width then selected &&& g4Topmask width else selected
    let unknown := (range n).any fun i => selected i &&& source.wordsB.getD i 0 ≠ 0
    let target :=
      if target.width > 64 ∧ target.b.isNone ∧ source.b.isSome ∧ unknown then llgGmpSv4Promote target
      else target
    let merge := fun (words plane : Words) => plane.mapIdx fun i old =>
      if i < n then (old &&& ~~~selected i) ||| (words.getD i 0 &&& selected i) else old
    llgGmpSv4Finish { target with a := merge source.a target.a, b := target.b.map (merge source.wordsB) }

/-- `llg_gmp_sv4_range_copy`. -/
def llgGmpSv4RangeCopy (target : G4) (offset : ℕ) (source : G4) (shared : Bool) : G4 :=
  if source.width = 0 ∨ shared then target
  else llgGmpSv4Finish (g4CopyBits target offset source 0 source.width)

/-- `llg_gmp_sv4_range_fill`. -/
def llgGmpSv4RangeFill (target : G4) (low count state : ℕ) : G4 :=
  if low ≥ target.width ∨ count = 0 then target
  else
    let count := if count > target.width - low then target.width - low else count
    llgGmpSv4Finish (g4FillBits target low count (if state ≤ 3 then state else 0))

/-- `llg_gmp_sv4_mask_remove`. -/
def llgGmpSv4MaskRemove (target removed : G4) : G4 :=
  let n := min (g4Words target.width) (g4Words removed.width)
  { target with
    a := target.a.mapIdx fun i old =>
      if i < n then
        old &&& ~~~(removed.a.getD i 0 &&& ~~~removed.wordsB.getD i 0 &&& ~~~target.wordsB.getD i 0)
      else old }

/-- `llg_gmp_sv4_mask_top`. -/
def llgGmpSv4MaskTop (v : G4) : G4 :=
  if v.width > 64 then llgGmpSv4Finish v
  else v.putSmall (v.smallA &&& g4Mask v.width) (v.smallB &&& g4Mask v.width)

/-- The loop of `llg_gmp_sv4_mul_add_known_wide`. -/
def mulAddWords (factor : BitVec 64) : Words → BitVec 64 → Words
  | [], _ => []
  | word :: words, carry =>
    let low := (word &&& 0xffffffff#64) * factor + carry
    let high := (word >>> 32) * factor + (low >>> 32)
    ((high <<< 32) ||| (low &&& 0xffffffff#64)) :: mulAddWords factor words (high >>> 32)

/-- `llg_gmp_sv4_mul_add_known`. -/
def llgGmpSv4MulAddKnown (v : G4) (factor addend : BitVec 32) : G4 :=
  let factor := factor.zeroExtend 64
  let addend := addend.zeroExtend 64
  if v.width > 64 then llgGmpSv4Finish { v with a := mulAddWords factor v.a addend }
  else v.putSmall ((v.smallA * factor + addend) &&& g4Mask v.width) v.smallB

/-- `llg_gmp_sv4_negate_known`. -/
def llgGmpSv4NegateKnown (v : G4) : G4 :=
  if v.width > 64 then llgGmpSv4Finish { v with a := negateCarry 1#64 v.a }
  else v.putSmall ((0 - v.smallA) &&& g4Mask v.width) v.smallB

/-- `llg_gmp_sv4_two_state_inplace`. -/
def llgGmpSv4TwoStateInplace (v : G4) : G4 :=
  if v.width > 64 then
    match v.b with
    | none => v
    | some b =>
      llgGmpSv4Finish { v with
        a := zipWith (fun a b => a &&& ~~~b) v.a b
        b := some (b.map fun _ => 0) }
  else v.putSmall (v.smallA &&& ~~~v.smallB) 0

/-- The loop of `llg_gmp_sv4_append_digit_wide` on one plane. -/
def appendBits (count : ℕ) : Words → BitVec 64 → Words
  | [], _ => []
  | word :: words, carry => ((word <<< count) ||| carry) :: appendBits count words (word >>> (64 - count))

/-- `llg_gmp_sv4_append_digit`. -/
def llgGmpSv4AppendDigit (v : G4) (count state : ℕ) (digit : BitVec 64) : G4 :=
  let mask := g4Mask count
  let a := if state = 0 then digit &&& mask else if state = 2 then mask else 0
  let b := if state = 2 ∨ state = 3 then mask else 0
  if v.width > 64 then
    let v := if b ≠ 0 then llgGmpSv4Promote v else v
    llgGmpSv4Finish { v with a := appendBits count v.a a, b := v.b.map (appendBits count · b) }
  else
    v.putSmall (((v.smallA <<< count) ||| a) &&& g4Mask v.width) (((v.smallB <<< count) ||| b) &&& g4Mask v.width)

/-! ## Construction -/

section Construction

variable {w : ℕ}

/-- `llg_gmp_sv4_from_u64` keeps the bits below the width. -/
lemma yields_llgGmpSv4FromU64 (bits : BitVec 64) (w : ℕ) (s : Bool) :
    Yields (llgGmpSv4FromU64 bits w s) w s fun i => Elab.Bit.ofBool (bits.getLsbD i) := by
  rw [llgGmpSv4FromU64]
  split_ifs with hw
  · exact yields_g4Small hw fun i _ => by simp [stateBit_false]
  have hwide : 64 < w := by omega
  have hlen : 0 < (replicate (g4Words w) (0 : BitVec 64)).length := by
    rw [length_replicate, g4Words]
    omega
  simp only [llgGmpSv4Zero, if_neg hw, llgGmpSv4New_wide hwide]
  have hbits : ∀ i, (wordsNat ((replicate (g4Words w) 0).set 0 bits)).testBit i =
      (decide (i < w) && bits.getLsbD i) := by
    intro i
    rw [testBit_wordsNat, getD_eq_getElem?_getD, getElem?_set]
    by_cases hi : 0 = i / 64
    · rw [if_pos hi, if_pos hlen, Option.getD_some, decide_eq_true (by omega), Nat.mod_eq_of_lt (by omega),
        Bool.true_and]
    · rw [if_neg hi, getElem?_replicate, BitVec.getLsbD_of_ge bits i (by omega), Bool.and_false]
      split_ifs <;> simp
  refine ⟨canonical_of_planes hwide s (p := bits.getLsbD) (q := fun _ => false)
    (length_set.trans length_replicate) (by simp) hbits (by simp) (by simp), rfl, rfl, fun i hi => ?_⟩
  rw [G4.stateAt, G4.aNat, hbits, decide_eq_true hi, Bool.true_and, ← stateBit_false]
  simp [G4.bNat]

lemma llgGmpSv4FromU64_canonical (bits : BitVec 64) (w : ℕ) (s : Bool) :
    (llgGmpSv4FromU64 bits w s).Canonical := (yields_llgGmpSv4FromU64 bits w s).canonical

lemma llgGmpSv4FromMasks_canonical (bits x z : BitVec 64) (w : ℕ) (s : Bool) :
    ∀ out ∈ llgGmpSv4FromMasks bits x z w s, out.Canonical := by
  rw [llgGmpSv4FromMasks]
  split_ifs
  · rintro _ ⟨⟩
  · rintro _ ⟨⟩
    exact g4Small_ok (by omega) ..

lemma llgGmpSv4New_shaped (hw : 64 < w) (s withB : Bool) : (llgGmpSv4New w s withB).Shaped w := by
  have hlen := (holds_replicate_zero (w := w) (by omega)).length
  rw [llgGmpSv4New_wide hw]
  refine shaped_of_wide hw hlen fun b hb => ?_
  cases withB <;> cases hb
  exact hlen

lemma llgGmpSv4FromLimbs_canonical (bits x z : Words) (w : ℕ) (s : Bool) :
    ∀ out ∈ llgGmpSv4FromLimbs bits x z w s, out.Canonical := by
  rw [llgGmpSv4FromLimbs]
  split_ifs with hw
  · rintro _ ⟨⟩
    exact ((llgGmpSv4New_shaped hw s _).replace length_mapIdx (fun _ _ => length_mapIdx)
      (by omega)).finish
  all_goals exact llgGmpSv4FromMasks_canonical _ _ _ _ _

end Construction

section Update

variable {v : G4}

lemma llgGmpSv4Cast_canonical (h : v.Canonical) (w : ℕ) (s : Bool) : (llgGmpSv4Cast v w s).Canonical :=
  (convert_yields h w s v.isSigned).canonical

/-- A plane with fewer bits. -/
lemma holds_of_testBit_le {w x : ℕ} {ws out : Words} (h : Holds w ws x) (hlen : out.length = ws.length)
    (hbits : ∀ i, (wordsNat out).testBit i = true → (wordsNat ws).testBit i = true) :
    Holds w out (wordsNat out) := by
  refine ⟨hlen.trans h.length, rfl, Nat.lt_pow_two_of_testBit _ fun i hi => ?_⟩
  by_contra hbit
  have htrue := hbits i (by simpa using hbit)
  rw [h.value, testBit_beyond h.lt hi] at htrue
  cases htrue

lemma holds_clear {w x y : ℕ} {a b : Words} (ha : Holds w a x) (hb : Holds w b y) :
    Holds w (zipWith (fun a b => a &&& ~~~b) a b)
      (wordsNat (zipWith (fun a b => a &&& ~~~b) a b)) := by
  have hlen : a.length = b.length := ha.length.trans hb.length.symm
  refine holds_of_testBit_le ha (by rw [length_zipWith, hlen, Nat.min_self]) fun i hi => ?_
  by_cases hlt : i / 64 < a.length
  · rw [testBit_wordsNat_zipWith _ hlen hlt, BitVec.getLsbD_and, Bool.and_eq_true] at hi
    rw [testBit_wordsNat]
    exact hi.1
  · rw [testBit_wordsNat, getD_eq_default _ _ (by simp; omega)] at hi
    simp at hi

lemma llgGmpSv4ToTwoState_canonical (h : v.Canonical) : (llgGmpSv4ToTwoState v).Canonical := by
  rw [llgGmpSv4ToTwoState, llgGmpSv4TwoStateWide]
  split_ifs with hw
  · exact g4Small_ok hw ..
  have hwide : 64 < v.width := by omega
  cases hb : v.b with
  | none => exact (canonical_none hwide _ h.holds_a).1
  | some b => exact (canonical_none hwide _ (holds_clear h.holds_a (h.holds_b b hb))).1

lemma llgGmpSv4Copy_canonical {source : G4} (h : source.Canonical) : (llgGmpSv4Copy v source).Canonical := by
  rw [llgGmpSv4Copy]
  split_ifs with hnarrow hsame
  · exact h
  · obtain ⟨-, hwidth, -⟩ := hsame
    rw [← hwidth]
    exact h
  · exact h

/-! ## Imports -/

lemma length_putWords (first count : ℕ) (words : ℕ → BitVec 64) (plane : Words) :
    (putWords first count words plane).length = plane.length :=
  length_mapIdx

lemma importRange_canonical (h : v.Canonical) (hw : 64 < v.width) (first count : ℕ) (a b : ℕ → BitVec 64) :
    (importRange v first count a b).Canonical := by
  rw [importRange]
  split_ifs
  · exact h
  all_goals
    have hshaped := h.shaped
  · exact (hshaped.promote.replace (length_putWords ..) (fun _ _ => length_putWords ..) (by omega)).finish
  · exact (hshaped.replace (length_putWords ..) (fun _ _ => length_putWords ..) (by omega)).finish

lemma llgGmpSv4ImportVpiWords_canonical (h : v.Canonical) (first : ℕ) (input : List (BitVec 64 × BitVec 64)) :
    (llgGmpSv4ImportVpiWords v first input).Canonical := by
  rw [llgGmpSv4ImportVpiWords]
  split_ifs with hw
  · exact importRange_canonical h hw ..
  · exact llgGmpSv4SetVpiWord_canonical h ..
  · exact h

lemma llgGmpSv4ImportWords_canonical (h : v.Canonical) (first : ℕ) (input : List StateWord) :
    (llgGmpSv4ImportWords v first input).Canonical := by
  rw [llgGmpSv4ImportWords]
  split_ifs with hw
  · exact importRange_canonical h hw ..
  · exact llgGmpSv4SetVpiWord_canonical h ..
  · exact h

lemma length_foldl_putHalf (l : List ℕ) (value : ℕ → BitVec 32) (plane : Words) :
    (l.foldl (fun plane i => putHalf plane i (value i)) plane).length = plane.length := by
  induction l generalizing plane with
  | nil => rfl
  | cons i l ih => exact (ih _).trans (length_putWord ..)

lemma llgGmpSv4ImportVpi32_canonical (h : v.Canonical) (input : List (BitVec 32 × BitVec 32)) :
    (llgGmpSv4ImportVpi32 v input).Canonical := by
  simp only [llgGmpSv4ImportVpi32]
  generalize hcount : (if input.length > (v.width + 31) / 32 then (v.width + 31) / 32 else input.length) = count
  have hfits : count ≤ (v.width + 31) / 32 := by
    rw [← hcount]
    split_ifs <;> omega
  by_cases hzero : count = 0
  · rw [if_pos hzero]
    exact h
  · rw [if_neg hzero]
    exact ((G4.Shaped.ite h.shaped.promote h.shaped).replace (length_foldl_putHalf ..)
      (fun _ _ => length_foldl_putHalf ..) (by omega)).finish

/-! ## Updates -/

lemma mapIdx_eq_self {ws : Words} {n : ℕ} (hn : n = 0) (f : ℕ → BitVec 64 → BitVec 64) :
    (ws.mapIdx fun i old => if i < n then f i old else old) = ws := by
  refine ext_getElem length_mapIdx fun i _ _ => ?_
  rw [getElem_mapIdx, if_neg (by omega)]

lemma maskedWrite_canonical (h : v.Canonical) (source mask : G4) (shared clipped : Bool) :
    (maskedWrite v source mask shared clipped).Canonical := by
  rw [maskedWrite]
  by_cases hshared : shared = true
  · rw [if_pos hshared]
    exact h
  rw [if_neg hshared]
  refine G4.Shaped.finish ((G4.Shaped.ite h.shaped.promote h.shaped).replace length_mapIdx
    (fun _ _ => length_mapIdx) fun hw => ?_)
  have hn : min (min (g4Words (if clipped = true ∧ v.width > source.width then source.width else v.width))
      (g4Words source.width)) (g4Words mask.width) = 0 := by
    rw [if_neg (by omega), hw]
    simp [g4Words]
  exact ⟨mapIdx_eq_self hn _, fun _ _ => mapIdx_eq_self hn _⟩

/-- The documented interval of a range copy lies in the target. -/
lemma llgGmpSv4RangeCopy_canonical (h : v.Canonical) {offset : ℕ} {source : G4}
    (hfits : offset + source.width ≤ v.width) (shared : Bool) :
    (llgGmpSv4RangeCopy v offset source shared).Canonical := by
  rw [llgGmpSv4RangeCopy]
  split_ifs
  · exact h
  · exact (h.shaped.copyBits _ _ _ (by omega)).finish

lemma llgGmpSv4RangeFill_canonical (h : v.Canonical) (low count state : ℕ) :
    (llgGmpSv4RangeFill v low count state).Canonical := by
  simp only [llgGmpSv4RangeFill]
  by_cases hout : low ≥ v.width ∨ count = 0
  · rw [if_pos hout]
    exact h
  · rw [if_neg hout]
    exact (h.shaped.fillBits _ _ (by omega)).finish

lemma llgGmpSv4MaskRemove_canonical (h : v.Canonical) (removed : G4) :
    (llgGmpSv4MaskRemove v removed).Canonical := by
  refine ⟨holds_of_testBit_le h.holds_a length_mapIdx fun i hi => ?_, h.holds_b, h.isSome_b⟩
  simp only [llgGmpSv4MaskRemove] at hi
  rw [testBit_wordsNat, getD_eq_getElem?_getD, getElem?_mapIdx] at hi
  rw [testBit_wordsNat, getD_eq_getElem?_getD]
  cases hword : v.a[i / 64]? with
  | none =>
    rw [hword] at hi
    simp at hi
  | some =>
    rw [hword, Option.map_some, Option.getD_some] at hi
    rw [Option.getD_some]
    split_ifs at hi
    · rw [BitVec.getLsbD_and, Bool.and_eq_true] at hi
      exact hi.1
    · exact hi

lemma llgGmpSv4MaskTop_canonical (h : v.Canonical) : (llgGmpSv4MaskTop v).Canonical := by
  rw [llgGmpSv4MaskTop]
  split_ifs with hw
  · exact h.shaped.finish
  · exact putSmall_canonical (by omega) (.and_right _ (below_g4Mask _)) (.and_right _ (below_g4Mask _))

/-- The plane `a` of a wide value is replaced and the value is finished. -/
lemma G4.Canonical.finish_replaceA (h : v.Canonical) (hw : 64 < v.width) {a : Words}
    (hlen : a.length = v.a.length) : (llgGmpSv4Finish { v with a := a }).Canonical := by
  exact (shaped_of_wide hw (hlen.trans h.shaped.length_a) h.shaped.length_b).finish

lemma length_mulAddWords (factor : BitVec 64) (ws : Words) (carry : BitVec 64) :
    (mulAddWords factor ws carry).length = ws.length := by
  induction ws generalizing carry with
  | nil => rfl
  | cons word ws ih => exact congrArg Nat.succ (ih _)

lemma llgGmpSv4MulAddKnown_canonical (h : v.Canonical) (factor addend : BitVec 32) :
    (llgGmpSv4MulAddKnown v factor addend).Canonical := by
  rw [llgGmpSv4MulAddKnown]
  split_ifs with hw
  · exact h.finish_replaceA hw (length_mulAddWords ..)
  · exact putSmall_canonical (by omega) (.and_right _ (below_g4Mask _)) (h.below_smallB (by omega))

lemma length_negateCarry (carry : BitVec 64) (ws : Words) : (negateCarry carry ws).length = ws.length := by
  induction ws generalizing carry with
  | nil => rfl
  | cons word ws ih => exact congrArg Nat.succ (ih _)

lemma llgGmpSv4NegateKnown_canonical (h : v.Canonical) : (llgGmpSv4NegateKnown v).Canonical := by
  rw [llgGmpSv4NegateKnown]
  split_ifs with hw
  · exact h.finish_replaceA hw (length_negateCarry ..)
  · exact putSmall_canonical (by omega) (.and_right _ (below_g4Mask _)) (h.below_smallB (by omega))

lemma llgGmpSv4TwoStateInplace_canonical (h : v.Canonical) : (llgGmpSv4TwoStateInplace v).Canonical := by
  rw [llgGmpSv4TwoStateInplace]
  split_ifs with hw
  · cases hb : v.b with
    | none => exact h
    | some b =>
      have hshaped := h.shaped
      have hlenB := hshaped.length_b b hb
      refine (shaped_of_wide hw ?_ ?_).finish
      · rw [length_zipWith, hshaped.length_a, hlenB, Nat.min_self]
      · rintro _ ⟨⟩
        rw [length_map, hlenB]
  · exact putSmall_canonical (by omega) ((h.below_smallA (by omega)).and_left _) (below_zero _)

lemma length_appendBits (count : ℕ) (ws : Words) (carry : BitVec 64) :
    (appendBits count ws carry).length = ws.length := by
  induction ws generalizing carry with
  | nil => rfl
  | cons word ws ih => exact congrArg Nat.succ (ih _)

lemma llgGmpSv4AppendDigit_canonical (h : v.Canonical) (count state : ℕ) (digit : BitVec 64) :
    (llgGmpSv4AppendDigit v count state digit).Canonical := by
  simp only [llgGmpSv4AppendDigit]
  by_cases hw : v.width > 64
  · rw [if_pos hw]
    exact ((G4.Shaped.ite h.shaped.promote h.shaped).replace (length_appendBits ..)
      (fun _ _ => length_appendBits ..) (by omega)).finish
  · rw [if_neg hw]
    exact putSmall_canonical (by omega) (.and_right _ (below_g4Mask _)) (.and_right _ (below_g4Mask _))

end Update

end Lapligence.Value
