import Lapligence.Value.Ranges

/-!
# Selections

The selections and the partial writes of `value_gmp/selection_inline.h` and `selections.c`.  A narrow source
and a narrow result are handled within one word, everything else by the copies of `ranges.h`.  Coordinates are
integers; a check that aborts the program is `none`.

A result of the narrow paths is canonical because no bit above its width is written (`Below`), a result of
the wide paths because it is finished.
-/

namespace Lapligence.Value

open WordLists Constraints

/-! ## The functions -/

/-- `INT64_MAX`. -/
def int64Max : ℕ := 2 ^ 63 - 1

/-- `g4_selection_width`. -/
def g4SelectionWidth (width : ℕ) : Option ℕ :=
  if width ≥ llgGmpSupportedWidthLimit then none else some width

/-- `g4_selection_part_width`. -/
def g4SelectionPartWidth (left right : ℤ) : Option ℕ :=
  let delta := if left ≥ right then (left - right).toNat else (right - left).toNat
  if delta = 2 ^ 64 - 1 then none else g4SelectionWidth (delta + 1)

/-- The words of a narrow value are replaced. -/
def G4.putSmall (v : G4) (a b : BitVec 64) : G4 := { v with a := [a], b := some [b] }

/-- `word <= INT64_MAX ? (int64_t)word : -1 - (int64_t)~word`. -/
def signedWord (word : BitVec 64) : ℤ :=
  if word.toNat ≤ int64Max then word.toNat else -1 - (~~~word).toNat

/-- `g4_selection_small_index`. -/
def g4SelectionSmallIndex (base : G4) : Option ℤ :=
  if base.smallB ≠ 0 then none
  else
    let word := base.smallA
    if base.isSigned ∧ base.width ≠ 0 ∧ (word >>> (base.width - 1)) &&& 1#64 ≠ 0 then
      some (signedWord (word ||| ~~~g4Mask base.width))
    else if word.toNat > int64Max then none
    else some (signedWord word)

/-- `g4_selection_index`. -/
def g4SelectionIndex (v : G4) : Option ℤ :=
  if llgGmpSv4IsUnknown v then none
  else
    let low := if v.width ≠ 0 then v.a.getD 0 0 else 0
    let negative : Bool := v.isSigned ∧ v.width ≠ 0 ∧ llgGmpSv4State v (v.width - 1) = 1
    if v.width > 64 then
      let n := g4Words v.width
      if ((low >>> 63) ≠ 0) ≠ (negative = true) then none
      else if (List.range n).all fun i => i = 0 ∨ v.a.getD i 0 = if negative then wordMask v.width n i else 0 then
        some (signedWord low)
      else none
    else if negative then some (signedWord (low ||| ~~~g4Mask v.width))
    else if low.toNat > int64Max then none
    else some (signedWord low)

/-- `g4_selection_small_window`: positions outside the source are X. -/
def g4SelectionSmallWindow (source : G4) (low : ℤ) (width : ℕ) : G4 :=
  let r := g4Small (BitVec.allOnes 64) (BitVec.allOnes 64) width false
  if width = 0 ∨ low ≥ source.width ∨ low ≤ -width then r
  else
    let input := if low < 0 then 0 else low.toNat
    let output := if low < 0 then (-low).toNat else 0
    let count := min (source.width - input) (width - output)
    if count = 0 then r
    else
      let mask := g4Mask count <<< output
      r.putSmall ((r.smallA &&& ~~~mask) ||| (((source.smallA >>> input) <<< output) &&& mask))
        ((r.smallB &&& ~~~mask) ||| (((source.smallB >>> input) <<< output) &&& mask))

/-- `g4_selection_small_write`. -/
def g4SelectionSmallWrite (dst : G4) (low : ℤ) (source : G4) (sourceLow : ℤ) (width : ℕ) : G4 :=
  if width = 0 ∨ low ≥ dst.width ∨ low ≤ -width then dst
  else
    let skip := if low < 0 then (-low).toNat else 0
    let start := (low + skip).toNat
    let count := min (width - skip) (dst.width - start)
    let sourceLow :=
      if sourceLow ≥ source.width ∨ sourceLow ≤ -width then (source.width : ℤ) else sourceLow + skip
    let bits := g4SelectionSmallWindow source sourceLow count
    let mask := g4Mask count <<< start
    dst.putSmall ((dst.smallA &&& ~~~mask) ||| (bits.smallA <<< start))
      ((dst.smallB &&& ~~~mask) ||| (bits.smallB <<< start))

/-- `llg_gmp_sv4_bit_select`. -/
def llgGmpSv4BitSelect (value : G4) (index : ℕ) : G4 :=
  let state := if index ≥ value.width then 2 else llgGmpSv4State value index
  g4Small (if state = 1 ∨ state = 2 then 1 else 0) (if state ≥ 2 then 1 else 0) 1 false

/-- `llg_gmp_sv4_set_ab_wide`. -/
def llgGmpSv4SetAbWide (v : G4) (word : ℕ) (a b : BitVec 64) : G4 :=
  let mask := wordMask v.width (g4Words v.width) word
  let a := a &&& mask
  let b := b &&& mask
  let v := if b ≠ 0 then llgGmpSv4Promote v else v
  llgGmpSv4Finish { v with a := v.a.set word a, b := v.b.map (·.set word b) }

/-- `llg_gmp_sv4_set_vpi_word`. -/
def llgGmpSv4SetVpiWord (v : G4) (word : ℕ) (aval bval : BitVec 64) : G4 :=
  if word ≥ g4Words v.width then v
  else if v.width ≤ 64 then v.putSmall (aval &&& g4Mask v.width) (bval &&& g4Mask v.width)
  else llgGmpSv4SetAbWide v word aval bval

/-- `llg_gmp_sv4_set_word`. -/
def llgGmpSv4SetWord (v : G4) (word : ℕ) (bits x z : BitVec 64) : G4 :=
  llgGmpSv4SetVpiWord v word ((bits &&& ~~~(x ||| z)) ||| x) (x ||| z)

/-- `llg_gmp_sv4_set_state`. -/
def llgGmpSv4SetState (v : G4) (bit state : ℕ) : Option G4 :=
  if state > 3 then none
  else if bit ≥ v.width then some v
  else
    let mask := 1#64 <<< (bit % 64)
    let aval := v.a.getD (bit / 64) 0
    let bval := v.wordsB.getD (bit / 64) 0
    some (llgGmpSv4SetVpiWord v (bit / 64)
      ((aval &&& ~~~mask) ||| if state = 1 ∨ state = 2 then mask else 0)
      ((bval &&& ~~~mask) ||| if state ≥ 2 then mask else 0))

/-- `llg_gmp_sv4_bit_select_set`. -/
def llgGmpSv4BitSelectSet (dst : G4) (index : ℕ) (source : G4) : Option G4 :=
  if index < dst.width then llgGmpSv4SetState dst index (llgGmpSv4State source 0) else some dst

/-- `llg_gmp_sv4_part_select_wide`. -/
def llgGmpSv4PartSelectWide (v : G4) (left right : ℤ) (width : ℕ) : G4 :=
  let r := llgGmpSv4Zero width false
  if left ≥ right then llgGmpSv4Finish (g4CopyWindow r 0 v right width)
  else llgGmpSv4Finish (g4ReverseWindow r 0 v right width)

/-- The bits of a narrow value of a width in the reverse order. -/
def G4.reverseSmall (v : G4) (width : ℕ) : G4 :=
  v.putSmall (g4ReverseWord v.smallA >>> (64 - width)) (g4ReverseWord v.smallB >>> (64 - width))

/-- `llg_gmp_sv4_part_select`. -/
def llgGmpSv4PartSelect (source : G4) (left right : ℤ) : Option G4 := do
  let width ← g4SelectionPartWidth left right
  if source.width > 64 ∨ width > 64 then return llgGmpSv4PartSelectWide source left right width
  if left ≥ right then return g4SelectionSmallWindow source right width
  return (g4SelectionSmallWindow source left width).reverseSmall width

/-- `llg_gmp_sv4_part_select_set_wide`. -/
def llgGmpSv4PartSelectSetWide (target : G4) (left right : ℤ) (value : G4) (width : ℕ) : G4 :=
  if left ≥ right then llgGmpSv4Finish (g4CopyWindow target right value ((value.width : ℤ) - width) width)
  else llgGmpSv4Finish (g4ReverseWindow target left value ((value.width : ℤ) - 1) width)

/-- `llg_gmp_sv4_part_select_set`. -/
def llgGmpSv4PartSelectSet (dst : G4) (left right : ℤ) (source : G4) : Option G4 := do
  let width ← g4SelectionPartWidth left right
  if dst.width > 64 ∨ source.width > 64 then return llgGmpSv4PartSelectSetWide dst left right source width
  if left ≥ right then return g4SelectionSmallWrite dst right source ((source.width : ℤ) - width) width
  if dst.width = 0 ∨ right < 0 ∨ left ≥ dst.width then return dst
  let start := if left < 0 then 0 else left
  let last := if right ≥ dst.width then (dst.width : ℤ) - 1 else right
  let count := (last - start + 1).toNat
  let bits := g4SelectionSmallWindow source ((source.width : ℤ) - (last - left + 1)) count
  return g4SelectionSmallWrite dst start (bits.reverseSmall count) 0 count

/-- `llg_gmp_sv4_indexed_low`. -/
def llgGmpSv4IndexedLow (base : ℤ) (width : ℕ) (neg : Bool) : Option ℤ :=
  if width = 0 ∨ (neg ∧ base < 0) then none
  else some (if neg then base - ((width : ℤ) - 1) else base)

/-- The result of an indexed selection: all X without a position. -/
def indexedSelect (v : G4) (low : Option ℤ) (width : ℕ) : G4 :=
  let result := llgGmpSv4Zero width false
  match low with
  | some low => llgGmpSv4Finish (g4CopyWindow result 0 v low width)
  | none => llgGmpSv4Finish (g4FillBits result 0 width 2)

/-- The target after an indexed write: unchanged without a position. -/
def indexedWrite (target : G4) (low : Option ℤ) (width : ℕ) (value : G4) : G4 :=
  match low with
  | some low => llgGmpSv4Finish (g4CopyWindow target low value 0 width)
  | none => target

/-- The position of an indexed selection by a number. -/
def scalarLow (base width : ℕ) (neg : Bool) : Option ℤ :=
  if base ≤ int64Max then llgGmpSv4IndexedLow base width neg else none

/-- `llg_gmp_sv4_idx_part_select_wide`. -/
def llgGmpSv4IdxPartSelectWide (v : G4) (base width : ℕ) (neg : Bool) : G4 :=
  indexedSelect v (scalarLow base width neg) width

/-- `llg_gmp_sv4_idx_part_select`. -/
def llgGmpSv4IdxPartSelect (source : G4) (base width : ℕ) (negative : Bool) : Option G4 := do
  let width ← g4SelectionWidth width
  if source.width > 64 ∨ width > 64 then return llgGmpSv4IdxPartSelectWide source base width negative
  if base > int64Max ∨ width = 0 then
    return g4Small (BitVec.allOnes 64) (BitVec.allOnes 64) width false
  return g4SelectionSmallWindow source ((base : ℤ) - if negative then (width : ℤ) - 1 else 0) width

/-- `llg_gmp_sv4_idx_part_select_set_wide`. -/
def llgGmpSv4IdxPartSelectSetWide (target : G4) (base width : ℕ) (neg : Bool) (value : G4) : G4 :=
  indexedWrite target (scalarLow base width neg) width value

/-- `llg_gmp_sv4_idx_part_select_set`. -/
def llgGmpSv4IdxPartSelectSet (dst : G4) (base width : ℕ) (negative : Bool) (source : G4) : Option G4 := do
  let width ← g4SelectionWidth width
  if dst.width > 64 ∨ source.width > 64 then
    return llgGmpSv4IdxPartSelectSetWide dst base width negative source
  if base ≤ int64Max ∧ width ≠ 0 then
    return g4SelectionSmallWrite dst ((base : ℤ) - if negative then (width : ℤ) - 1 else 0) source 0 width
  return dst

/-- The position of an indexed selection by a value. -/
def valueLow (base : G4) (width : ℕ) (neg : Bool) : Option ℤ :=
  (g4SelectionIndex base).bind fun index => llgGmpSv4IndexedLow index width neg

/-- `llg_gmp_sv4_idx_part_select_value_wide`. -/
def llgGmpSv4IdxPartSelectValueWide (v base : G4) (width : ℕ) (neg : Bool) : G4 :=
  indexedSelect v (valueLow base width neg) width

/-- `llg_gmp_sv4_idx_part_select_value`. -/
def llgGmpSv4IdxPartSelectValue (source base : G4) (width : ℕ) (negative : Bool) : Option G4 := do
  let width ← g4SelectionWidth width
  if source.width > 64 ∨ base.width > 64 ∨ width > 64 then
    return llgGmpSv4IdxPartSelectValueWide source base width negative
  match g4SelectionSmallIndex base with
  | some index =>
    if width = 0 ∨ (negative ∧ index < 0) then
      return g4Small (BitVec.allOnes 64) (BitVec.allOnes 64) width false
    return g4SelectionSmallWindow source (index - if negative then (width : ℤ) - 1 else 0) width
  | none => return g4Small (BitVec.allOnes 64) (BitVec.allOnes 64) width false

/-- `llg_gmp_sv4_idx_part_select_set_value_wide`. -/
def llgGmpSv4IdxPartSelectSetValueWide (target base : G4) (width : ℕ) (neg : Bool) (value : G4) : G4 :=
  indexedWrite target (valueLow base width neg) width value

/-- `llg_gmp_sv4_idx_part_select_set_value`. -/
def llgGmpSv4IdxPartSelectSetValue (dst base : G4) (width : ℕ) (negative : Bool) (source : G4) :
    Option G4 := do
  let width ← g4SelectionWidth width
  if dst.width > 64 ∨ source.width > 64 ∨ base.width > 64 then
    return llgGmpSv4IdxPartSelectSetValueWide dst base width negative source
  match g4SelectionSmallIndex base with
  | some index =>
    if width ≠ 0 ∧ ¬(negative ∧ index < 0) then
      return g4SelectionSmallWrite dst (index - if negative then (width : ℤ) - 1 else 0) source 0 width
    return dst
  | none => return dst

/-- `llg_gmp_sv4_select_plan_t`: the bits `valueLsb + i` of the selection are the bits `storageLsb + i` of the
storage, for `i < count`. -/
structure SelectPlan where
  storageWidth : ℕ
  width : ℕ
  storageLsb : ℕ
  valueLsb : ℕ
  count : ℕ

/-- `g4_selection_plan_check`. -/
def g4SelectionPlanCheck (plan : SelectPlan) : Bool :=
  plan.storageWidth ≠ 0 ∧ plan.width ≠ 0 ∧ plan.storageWidth < llgGmpSupportedWidthLimit ∧
    plan.width < llgGmpSupportedWidthLimit ∧ plan.storageLsb ≤ plan.storageWidth ∧
    plan.valueLsb ≤ plan.width ∧ plan.count ≤ plan.storageWidth - plan.storageLsb ∧
    plan.count ≤ plan.width - plan.valueLsb

/-- `llg_gmp_sv4_select_plan_read_wide`. -/
def llgGmpSv4SelectPlanReadWide (source : G4) (plan : SelectPlan) : G4 :=
  let result := llgGmpSv4Zero plan.width false
  let result := g4FillBits result 0 plan.valueLsb 2
  let result := g4FillBits result (plan.valueLsb + plan.count) (plan.width - plan.valueLsb - plan.count) 2
  llgGmpSv4Finish (g4CopyBits result plan.valueLsb source plan.storageLsb plan.count)

/-- `llg_gmp_sv4_select_plan_read`. -/
def llgGmpSv4SelectPlanRead (source : G4) (plan : SelectPlan) : Option G4 :=
  if g4SelectionPlanCheck plan = false ∨ source.width ≠ plan.storageWidth then none
  else if source.width > 64 ∨ plan.width > 64 then some (llgGmpSv4SelectPlanReadWide source plan)
  else
    let r := g4Small (BitVec.allOnes 64) (BitVec.allOnes 64) plan.width false
    if plan.count = 0 then some r
    else
      let mask := g4Mask plan.count <<< plan.valueLsb
      some (r.putSmall
        ((r.smallA &&& ~~~mask) ||| (((source.smallA >>> plan.storageLsb) <<< plan.valueLsb) &&& mask))
        ((r.smallB &&& ~~~mask) ||| (((source.smallB >>> plan.storageLsb) <<< plan.valueLsb) &&& mask)))

/-- `llg_gmp_sv4_select_plan_slice_wide`. -/
def llgGmpSv4SelectPlanSliceWide (source : G4) (plan : SelectPlan) (reverse : Bool) : G4 :=
  let result := llgGmpSv4Zero plan.count false
  if reverse then
    llgGmpSv4Finish (g4CopyReverse result 0 source (plan.width - plan.valueLsb - plan.count) plan.count)
  else llgGmpSv4Finish (g4CopyBits result 0 source plan.valueLsb plan.count)

/-- `llg_gmp_sv4_select_plan_slice`. -/
def llgGmpSv4SelectPlanSlice (source : G4) (plan : SelectPlan) (reverse : Bool) : Option G4 :=
  if g4SelectionPlanCheck plan = false ∨ source.width ≠ plan.width then none
  else if source.width > 64 then some (llgGmpSv4SelectPlanSliceWide source plan reverse)
  else if plan.count = 0 then some (g4Small 0 0 0 false)
  else if reverse then
    llgGmpSv4PartSelect source ((source.width - plan.valueLsb - plan.count : ℕ) : ℤ)
      ((source.width - plan.valueLsb - 1 : ℕ) : ℤ)
  else
    some (g4Small (source.smallA >>> plan.valueLsb) (source.smallB >>> plan.valueLsb) plan.count false)

/-- `llg_gmp_sv4_select_plan_set_wide`. -/
def llgGmpSv4SelectPlanSetWide (destination : G4) (plan : SelectPlan) (source : G4) : G4 :=
  if plan.count = 0 then destination
  else llgGmpSv4Finish (g4CopyBits destination plan.storageLsb source plan.valueLsb plan.count)

/-- `llg_gmp_sv4_select_plan_set`. -/
def llgGmpSv4SelectPlanSet (dst : G4) (plan : SelectPlan) (source : G4) : Option G4 :=
  if g4SelectionPlanCheck plan = false ∨ dst.width ≠ plan.storageWidth ∨ source.width ≠ plan.width then none
  else if dst.width > 64 ∨ source.width > 64 then some (llgGmpSv4SelectPlanSetWide dst plan source)
  else if plan.count = 0 then some dst
  else
    let mask := g4Mask plan.count <<< plan.storageLsb
    some (dst.putSmall
      ((dst.smallA &&& ~~~mask) ||| (((source.smallA >>> plan.valueLsb) <<< plan.storageLsb) &&& mask))
      ((dst.smallB &&& ~~~mask) ||| (((source.smallB >>> plan.valueLsb) <<< plan.storageLsb) &&& mask)))

/-! ## Words below a width -/

/-- No bit of the word at `w` or above is set. -/
def Below (w : ℕ) (x : BitVec 64) : Prop := ∀ k, w ≤ k → x.getLsbD k = false

section Below

variable {w count : ℕ} {x y : BitVec 64}

lemma Below.toNat_lt (h : Below w x) : x.toNat < 2 ^ w := by
  refine Nat.lt_pow_two_of_testBit _ fun k hk => ?_
  rw [BitVec.testBit_toNat]
  exact h k hk

lemma below_of_toNat_lt (h : x.toNat < 2 ^ w) : Below w x := by
  intro k hk
  rw [← BitVec.testBit_toNat]
  exact testBit_beyond h hk

lemma Below.or (hx : Below w x) (hy : Below w y) : Below w (x ||| y) := by
  intro k hk
  rw [BitVec.getLsbD_or, hx k hk, hy k hk, Bool.or_false]

lemma Below.and_left (hx : Below w x) (y : BitVec 64) : Below w (x &&& y) := by
  intro k hk
  rw [BitVec.getLsbD_and, hx k hk, Bool.false_and]

lemma Below.and_right (x : BitVec 64) (hy : Below w y) : Below w (x &&& y) := by
  rw [BitVec.and_comm]
  exact hy.and_left x

lemma below_g4Mask (w : ℕ) : Below w (g4Mask w) := by
  intro k hk
  rw [getLsbD_g4Mask]
  exact decide_eq_false (by omega)

lemma Below.shiftLeft (hx : Below count x) {start : ℕ} (h : start + count ≤ w) : Below w (x <<< start) := by
  intro k hk
  rw [BitVec.getLsbD_shiftLeft, hx (k - start) (by omega), Bool.and_false]

lemma below_zero (w : ℕ) : Below w 0 := fun k _ => by simp

lemma below_reverse (hpos : 0 < w) (hw : w ≤ 64) (x : BitVec 64) : Below w (g4ReverseWord x >>> (64 - w)) := by
  intro k hk
  rw [getLsbD_g4ReverseWord_shift hpos hw, decide_eq_false (by omega), Bool.false_and]

end Below

section Canonical

variable {v : G4} {w : ℕ}

lemma canonical_of_below (hw : w ≤ 64) (s : Bool) {x y : BitVec 64} (hx : Below w x) (hy : Below w y) :
    G4.Canonical ⟨w, s, [x], some [y]⟩ :=
  canonical_narrow hw s hx.toNat_lt hy.toNat_lt

lemma putSmall_canonical (hw : v.width ≤ 64) {x y : BitVec 64} (hx : Below v.width x)
    (hy : Below v.width y) : (v.putSmall x y).Canonical :=
  canonical_of_below hw v.isSigned hx hy

lemma G4.Canonical.below_smallA (h : v.Canonical) (hw : v.width ≤ 64) : Below v.width v.smallA :=
  below_of_toNat_lt (by rw [h.toNat_smallA hw]; exact h.aNat_lt)

lemma G4.Canonical.below_smallB (h : v.Canonical) (hw : v.width ≤ 64) : Below v.width v.smallB :=
  below_of_toNat_lt (by rw [h.toNat_smallB hw]; exact h.bNat_lt)

/-- Some bits of both words are replaced by bits below the width. -/
lemma G4.Canonical.putBits (h : v.Canonical) (hw : v.width ≤ 64) (mask : BitVec 64) {x y : BitVec 64}
    (hx : Below v.width x) (hy : Below v.width y) :
    (v.putSmall ((v.smallA &&& ~~~mask) ||| x) ((v.smallB &&& ~~~mask) ||| y)).Canonical :=
  putSmall_canonical hw (((h.below_smallA hw).and_left _).or hx) (((h.below_smallB hw).and_left _).or hy)

lemma g4Small_ok (hw : w ≤ 64) (a b : BitVec 64) (s : Bool) : (g4Small a b w s).Canonical :=
  (g4Small_canonical hw a b s).1

/-! ## Narrow selections -/

/-- A window is canonical whatever its source. -/
lemma g4SelectionSmallWindow_canonical (source : G4) (low : ℤ) (hw : w ≤ 64) :
    (g4SelectionSmallWindow source low w).Canonical := by
  have hr := g4Small_ok hw (BitVec.allOnes 64) (BitVec.allOnes 64) false
  simp only [g4SelectionSmallWindow]
  generalize houtput : (if low < 0 then (-low).toNat else 0) = output
  generalize (if low < 0 then 0 else low.toNat) = input
  split_ifs with hnone hcount
  · exact hr
  · exact hr
  have hfits : output < w := by
    rw [← houtput]
    split_ifs <;> omega
  refine hr.putBits hw _ (.and_right _ ?_) (.and_right _ ?_) <;>
    exact (below_g4Mask _).shiftLeft (show _ ≤ w by omega)

lemma g4SelectionSmallWindow_width (source : G4) (low : ℤ) (w : ℕ) :
    (g4SelectionSmallWindow source low w).width = w := by
  simp only [g4SelectionSmallWindow]
  split_ifs <;> rfl

lemma reverseSmall_canonical (hpos : 0 < v.width) (hw : v.width ≤ 64) : (v.reverseSmall v.width).Canonical :=
  putSmall_canonical hw (below_reverse hpos hw _) (below_reverse hpos hw _)

lemma G4.Canonical.smallWrite (h : v.Canonical) (hw : v.width ≤ 64) (low : ℤ) (source : G4) (sourceLow : ℤ)
    (width : ℕ) : (g4SelectionSmallWrite v low source sourceLow width).Canonical := by
  simp only [g4SelectionSmallWrite]
  generalize hskip : (if low < 0 then (-low).toNat else 0) = skip
  generalize hcount : min (width - skip) (v.width - (low + skip).toNat) = count
  generalize (if sourceLow ≥ source.width ∨ sourceLow ≤ -width then (source.width : ℤ)
    else sourceLow + skip) = position
  split_ifs with hnone
  · exact h
  have hstart : (low + skip).toNat ≤ v.width := by
    rw [not_or, not_or] at hnone
    rw [← hskip]
    split_ifs <;> omega
  have hbits := g4SelectionSmallWindow_canonical source position (show count ≤ 64 by omega)
  have hwidth := g4SelectionSmallWindow_width source position count
  have hA := hbits.below_smallA (by omega)
  have hB := hbits.below_smallB (by omega)
  rw [hwidth] at hA hB
  exact h.putBits hw _ (hA.shiftLeft (by omega)) (hB.shiftLeft (by omega))

/-! ## Words and states -/

lemma G4.Shaped.setWord (h : v.Shaped w) (hw : 0 < w) (word : ℕ) (a b : BitVec 64) :
    G4.Shaped { v with a := v.a.set word a, b := v.b.map (·.set word b) } w :=
  h.replace List.length_set (fun _ _ => List.length_set) (by omega)

lemma llgGmpSv4SetVpiWord_canonical (h : v.Canonical) (word : ℕ) (aval bval : BitVec 64) :
    (llgGmpSv4SetVpiWord v word aval bval).Canonical := by
  rw [llgGmpSv4SetVpiWord]
  split_ifs with hout hw
  · exact h
  · exact putSmall_canonical hw (.and_right _ (below_g4Mask _)) (.and_right _ (below_g4Mask _))
  · have hshaped := G4.Shaped.ite (p := bval &&& wordMask v.width (g4Words v.width) word ≠ 0)
      h.shaped.promote h.shaped
    exact (hshaped.setWord (by omega) _ _ _).finish

lemma llgGmpSv4SetState_canonical (h : v.Canonical) (bit state : ℕ) :
    ∀ out ∈ llgGmpSv4SetState v bit state, out.Canonical := by
  intro out hout
  simp only [llgGmpSv4SetState, Option.mem_def] at hout
  split_ifs at hout <;> cases hout
  · exact h
  all_goals exact llgGmpSv4SetVpiWord_canonical h ..

/-! ## Parts -/

lemma g4SelectionPartWidth_pos {left right : ℤ} {width : ℕ} (h : width ∈ g4SelectionPartWidth left right) :
    0 < width := by
  simp only [g4SelectionPartWidth, g4SelectionWidth, Option.mem_def] at h
  split_ifs at h <;> cases h <;> omega

/-! ## Plans -/

/-- The intervals of a checked plan. -/
lemma plan_bounds {plan : SelectPlan} (h : ¬ g4SelectionPlanCheck plan = false) :
    plan.storageWidth ≠ 0 ∧ plan.width ≠ 0 ∧ plan.storageLsb + plan.count ≤ plan.storageWidth ∧
      plan.valueLsb + plan.count ≤ plan.width := by
  rw [Bool.not_eq_false, g4SelectionPlanCheck, decide_eq_true_iff] at h
  omega

lemma llgGmpSv4SelectPlanRead_canonical (source : G4) (plan : SelectPlan) :
    ∀ out ∈ llgGmpSv4SelectPlanRead source plan, out.Canonical := by
  intro out hout
  simp only [llgGmpSv4SelectPlanRead, Option.mem_def] at hout
  split_ifs at hout with hcheck hwide hcount <;> cases hout
  all_goals
    rw [not_or] at hcheck
    obtain ⟨-, -, -, hfits⟩ := plan_bounds hcheck.1
  · have hzero := llgGmpSv4Zero_shaped plan.width false
    exact (((hzero.fillBits _ _ (by omega)).fillBits _ _ (by omega)).copyBits _ _ _ (by omega)).finish
  · exact g4Small_ok (by omega) ..
  · have hw : plan.width ≤ 64 := by omega
    refine (g4Small_ok hw ..).putBits hw _ (.and_right _ ?_) (.and_right _ ?_) <;>
      exact (below_g4Mask _).shiftLeft hfits

lemma llgGmpSv4SelectPlanSlice_canonical {source : G4}
    (hpart : ∀ left right, ∀ out ∈ llgGmpSv4PartSelect source left right, out.Canonical) (plan : SelectPlan)
    (reverse : Bool) : ∀ out ∈ llgGmpSv4SelectPlanSlice source plan reverse, out.Canonical := by
  intro out hout
  simp only [llgGmpSv4SelectPlanSlice, Option.mem_def] at hout
  split_ifs at hout with hcheck hwide hcount hreverse
  · cases hout
    have hzero := llgGmpSv4Zero_shaped plan.count false
    rw [llgGmpSv4SelectPlanSliceWide]
    split_ifs
    · exact (hzero.copyReverse _ _ _ id).finish
    · exact (hzero.copyBits _ _ _ id).finish
  · cases hout
    exact g4Small_ok (by omega) ..
  · exact hpart _ _ out hout
  · cases hout
    rw [not_or] at hcheck
    obtain ⟨-, -, -, hfits⟩ := plan_bounds hcheck.1
    exact g4Small_ok (by omega) ..

lemma llgGmpSv4SelectPlanSet_canonical (h : v.Canonical) (plan : SelectPlan) (source : G4) :
    ∀ out ∈ llgGmpSv4SelectPlanSet v plan source, out.Canonical := by
  intro out hout
  simp only [llgGmpSv4SelectPlanSet, Option.mem_def] at hout
  split_ifs at hout with hcheck hwide hcount <;> cases hout
  all_goals
    rw [not_or, not_or, not_not] at hcheck
    obtain ⟨-, -, hfits, -⟩ := plan_bounds hcheck.1
  · rw [llgGmpSv4SelectPlanSetWide]
    split_ifs
    · exact h
    · exact (h.shaped.copyBits _ _ _ (by omega)).finish
  · exact h
  · refine h.putBits (by omega) _ (.and_right _ ?_) (.and_right _ ?_) <;>
      exact (below_g4Mask _).shiftLeft (hfits.trans hcheck.2.1.ge)

end Canonical

end Lapligence.Value
