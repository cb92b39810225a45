import Lapligence.Constraints.Problem
import Lapligence.Framework.Spans
import Mathlib.Algebra.Order.BigOperators.Group.Finset
import Mathlib.Data.Int.Interval

/-!
# The sizes of dist ranges

How many values the ranges of a `dist` have: `cr_item_size` counts one range, `cr_dist_support` the
union of the ranges with a nonzero weight (`constraints/solve.c`).  Both work on multi-word naturals
with `bn_add`, but call it for a single word at a time, so that a carry out of a word is lost.

A range is an interval of the comparison type of its dist, to which lowering converts the
distributed expression and all bounds.  The bounds are read as integers here; `InType` says which
integers the type has.

## Contents

* the model: `crItemSize` and `crDistSupport`;
* `wordsNat_crItemSize_of_le` and `crDistSupport_limb`, what the words of the two results are;
* `dist_sizes_exact_iff`, when the results are the numbers of values.
-/

namespace Lapligence.Constraints

open WordLists Finset

/-! ## The model -/

/-- `bn_add` on the first `limbs` words of `d`.  The carry out of them is lost. -/
def bnAdd (d a : Words) (limbs : ℕ) : Words :=
  bvAddWords (d.take limbs) (a.take limbs) false ++ d.drop limbs

section Model

variable (p : CrProblem) (val : ℕ → Words)

/-- `cr_item_size`. -/
def crItemSize (item : CrDistItem) (limbs : ℕ) : Words :=
  let w := (p.nodes item.lo).bitWidth
  let words := crWords (w + 1)
  let sgn := item.loSigned
  let lo := bvExtend (w + 1) (val item.lo) w sgn
  let hi := bvExtend (w + 1) (val item.hi) (p.nodes item.hi).bitWidth sgn
  let less := if sgn then bvScmp hi lo (w + 1) == .lt else bvUcmp hi lo == .lt
  if less then List.replicate limbs 0
  else
    let d := bvSub hi lo (w + 1)
    let out := (List.range limbs).map fun i => if i < words then d.getD i 0 else 0
    bnAdd out [1] 1

/-- A bound in its slot of `cr_dist_support`: `w` bits in an array for `w + 1`.  Signed bounds order
like unsigned ones with the sign bit flipped. -/
def boundSlot (w : ℕ) (sgn : Bool) (bound : ℕ) : Words :=
  let l := bvExtend w (val bound) (p.nodes bound).bitWidth sgn ++
    List.replicate (crWords (w + 1) - crWords w) 0
  if sgn then bvSetBit l (w - 1) (!bvBit l (w - 1)) else l

/-- `bv_ucmp` of two slots at width `w`. -/
def slotCmp (w : ℕ) (a b : Words) : Ordering := bvUcmp (a.take (crWords w)) (b.take (crWords w))

/-- A round of the loop of `cr_dist_support` that collects the ranges, sorted by their lower
bounds. -/
def insertItem (w : ℕ) (ranges : List (Words × Words)) (item : CrDistItem) : List (Words × Words) :=
  if crDistItemZero p val item then ranges
  else
    let l := boundSlot p val w item.loSigned item.lo
    let h := boundSlot p val w item.loSigned item.hi
    if slotCmp w h l = .lt then ranges
    else ranges.rdropWhile (fun r => slotCmp w r.1 l = .gt) ++
      (l, h) :: ranges.rtakeWhile fun r => slotCmp w r.1 l = .gt

end Model

/-- Adds the size of the range from `cl` to `ch` to `out`: the difference word by word, then one. -/
def addRange (w limbs : ℕ) (out cl ch : Words) : Words :=
  let d := bvSub ch cl (w + 1)
  let out := (List.range (crWords (w + 1))).foldl (fun out k =>
    if k < limbs then out.take k ++ bnAdd (out.drop k) [d.getD k 0] 1 else out) out
  bnAdd out [1] 1

/-- The loop of `cr_dist_support` that joins overlapping ranges; `cl` and `ch` are the bounds of the
current one. -/
def sumRanges (w limbs : ℕ) : Words → Words → List (Words × Words) → Words → Words
  | cl, ch, [], out => addRange w limbs out cl ch
  | cl, ch, (l, h) :: ranges, out =>
    if slotCmp w l ch ≠ .gt then
      sumRanges w limbs cl (if slotCmp w h ch = .gt then h else ch) ranges out
    else sumRanges w limbs l h ranges (addRange w limbs out cl ch)

/-- `cr_dist_support`. -/
def crDistSupport (p : CrProblem) (val : ℕ → Words) (d : CrDist) (limbs : ℕ) : Words :=
  if d.itemCount = 0 then List.replicate limbs 0
  else
    let w := (p.nodes (p.distItems d.itemFirst).lo).bitWidth
    match (p.itemList d).foldl (insertItem p val w) [] with
    | [] => List.replicate limbs 0
    | (l, h) :: ranges => sumRanges w limbs l h ranges (List.replicate limbs 0)

/-! ## Ranges as sets of integers -/

/-- The integer a bound of width `w` stands for. -/
def boundInt (sgn : Bool) (w x : ℕ) : ℤ := if sgn then signedNat w x else x

/-- The integers that a comparison type of width `w` has. -/
def InType (sgn : Bool) (w : ℕ) (v : ℤ) : Prop :=
  if sgn then -2 ^ (w - 1) ≤ v ∧ v < 2 ^ (w - 1) else 0 ≤ v ∧ v < 2 ^ w

section Meaning

variable (p : CrProblem) (val : ℕ → Words) (d : CrDist)

def itemLow (item : CrDistItem) : ℤ :=
  boundInt item.loSigned (p.nodes item.lo).bitWidth (wordsNat (val item.lo))

def itemHigh (item : CrDistItem) : ℤ :=
  boundInt item.loSigned (p.nodes item.hi).bitWidth (wordsNat (val item.hi))

/-- The values of an item's range that its type can represent. -/
def itemValues (w : ℕ) (item : CrDistItem) : Set ℤ :=
  {v | itemLow p val item ≤ v ∧ v ≤ itemHigh p val item ∧ InType item.loSigned w v}

/-- The values of the items with a nonzero weight. -/
def supportValues (w : ℕ) : Set ℤ :=
  {v | ∃ item ∈ p.itemList d, crDistItemZero p val item = false ∧ v ∈ itemValues p val w item}

/-- An item whose bounds are known and have the width `w`. -/
structure ItemKnown (w : ℕ) (item : CrDistItem) : Prop where
  lo_width : (p.nodes item.lo).bitWidth = w
  hi_width : (p.nodes item.hi).bitWidth = w
  lo_masked : Masked w (val item.lo)
  hi_masked : Masked w (val item.hi)

/-- A dist as lowering builds it, with known bounds: all bounds have one comparison type. -/
structure DistKnown (w : ℕ) (sgn : Bool) : Prop where
  pos : 0 < w
  known : ∀ item ∈ p.itemList d, ItemKnown p val w item
  signed : ∀ item ∈ p.itemList d, item.loSigned = sgn

/-- What is added to a value of the comparison type to make it a natural number. -/
def offset (sgn : Bool) (w : ℕ) : ℤ := if sgn then 2 ^ (w - 1) else 0

def itemSpan (w : ℕ) (item : CrDistItem) : Span :=
  ⟨(itemLow p val item + offset item.loSigned w).toNat,
    (itemHigh p val item + offset item.loSigned w).toNat⟩

/-- The ranges of the items with a nonzero weight, overlapping ones joined. -/
def supportRanges (w : ℕ) : List Span :=
  Span.joinOverlaps ((((p.itemList d).filter fun item => !crDistItemZero p val item).map
    (itemSpan p val w)).filter fun s => s.lo ≤ s.hi)

/-- What word `k` of the support size should hold: the digits of all lengths, and in the lowest
word one more for each range. -/
def limbSum (spans : List Span) (k : ℕ) : ℕ :=
  (spans.map fun s => (s.hi - s.lo) / 2 ^ (64 * k) % 2 ^ 64).sum + if k = 0 then spans.length else 0

end Meaning

/-! ## Words -/

variable {w x y limbs : ℕ} {out : Words} {item : CrDistItem}

lemma wordsNat_append_zeros (ws : Words) (n : ℕ) :
    wordsNat (ws ++ List.replicate n 0) = wordsNat ws := by
  induction ws with
  | nil => exact wordsNat_replicate_zero n
  | cons x ws ih => rw [List.cons_append, wordsNat_cons, wordsNat_cons, ih]

lemma wordsNat_take (ws : Words) (n : ℕ) : wordsNat (ws.take n) = wordsNat ws % 2 ^ (64 * n) := by
  refine Nat.eq_of_testBit_eq fun i => ?_
  have hi : i < 64 * n ↔ i / 64 < n := by omega
  rw [Nat.testBit_mod_two_pow, testBit_wordsNat, testBit_wordsNat,
    List.getD_eq_getElem?_getD, List.getD_eq_getElem?_getD, List.getElem?_take]
  split_ifs with h <;> simp [hi, h]

/-- Adding to one word only, the carry being lost. -/
lemma bnAdd_word {k : ℕ} (hk : k < out.length) (v : BitVec 64) :
    out.take k ++ bnAdd (out.drop k) [v] 1 = out.modify k (· + v) := by
  rw [List.drop_eq_getElem_cons hk, List.modify_eq_take_cons_drop hk]
  simp only [bnAdd, List.take_succ_cons, List.take_zero, List.drop_succ_cons, List.drop_zero]
  simp [bvAddWords, flagWord]

lemma bnAdd_lowest (h : 0 < out.length) (v : BitVec 64) :
    bnAdd out [v] 1 = out.modify 0 (· + v) := bnAdd_word h v

/-- Flipping a bit. -/
lemma wordsNat_flip {l : Words} {i : ℕ} (hi : i / 64 < l.length) :
    wordsNat (bvSetBit l i (!bvBit l i)) = wordsNat l ^^^ 2 ^ i := by
  refine Nat.eq_of_testBit_eq fun j => ?_
  rw [Nat.testBit_xor, Nat.testBit_two_pow, bvBit_eq, testBit_bvSetBit hi]
  by_cases hj : j = i
  · subst hj
    simp
  · simp [hj, Ne.symm hj]

/-- Flipping the sign bit adds half of the range to the signed number. -/
lemma xor_signBit (hw : 0 < w) (hx : x < 2 ^ w) :
    ((x ^^^ 2 ^ (w - 1) : ℕ) : ℤ) = signedNat w x + 2 ^ (w - 1) := by
  obtain ⟨n, rfl⟩ : ∃ n, w = n + 1 := ⟨w - 1, by omega⟩
  rw [signedNat_eq hw hx, Nat.add_sub_cancel]
  rcases lt_or_ge x (2 ^ n) with hlt | hge
  · simp [xor_two_pow hlt, Nat.testBit_lt_two_pow hlt, add_comm]
  · -- the sign bit is set, and flipping it leaves the other bits
    obtain ⟨y, rfl⟩ := Nat.exists_eq_add_of_le hge
    have hy : y < 2 ^ n := by omega
    rw [← xor_two_pow hy, Nat.xor_assoc, Nat.xor_self, Nat.xor_zero, Nat.testBit_xor,
      Nat.testBit_lt_two_pow hy, Nat.testBit_two_pow_self, xor_two_pow hy,
      Bool.false_xor, if_pos rfl]
    push_cast
    ring

/-! ## Slots -/

/-- A slot of the array of bounds that holds a number of `w` bits. -/
structure Slot (w : ℕ) (l : Words) (n : ℕ) : Prop where
  length : l.length = crWords (w + 1)
  value : wordsNat l = n
  lt : n < 2 ^ w

section Slots

variable {w x y : ℕ} {a b : Words}

lemma crWords_le_succ (w : ℕ) : crWords w ≤ crWords (w + 1) := by
  rw [crWords, crWords, if_neg (Nat.succ_ne_zero w)]
  split_ifs <;> omega

lemma slotCmp_eq (ha : Slot w a x) (hb : Slot w b y) : slotCmp w a b = compare x y := by
  have hpow : 2 ^ w ≤ 2 ^ (64 * crWords w) := Nat.pow_le_pow_right (by norm_num) (le_crWords w)
  rw [slotCmp, bvUcmp_eq _ _ (by simp [ha.length, hb.length]), wordsNat_take, wordsNat_take,
    ha.value, hb.value, Nat.mod_eq_of_lt (ha.lt.trans_le hpow),
    Nat.mod_eq_of_lt (hb.lt.trans_le hpow)]

/-- The slot of a known bound holds its value, moved up to be a natural number. -/
lemma slot_boundSlot {p : CrProblem} {val : ℕ → Words} {bound : ℕ} (sgn : Bool) (hw : 0 < w)
    (hwidth : (p.nodes bound).bitWidth = w) (hval : Masked w (val bound)) :
    ∃ n, Slot w (boundSlot p val w sgn bound) n ∧
      (n : ℤ) = boundInt sgn w (wordsNat (val bound)) + offset sgn w := by
  have hx := hval.lt
  have hle := crWords_le_succ w
  have hext := Holds.bvExtend hval w sgn
  rw [extendNat_self sgn hx] at hext
  have hlen : (bvExtend w (val bound) w sgn ++
      List.replicate (crWords (w + 1) - crWords w) 0).length = crWords (w + 1) := by
    rw [List.length_append, hext.length, List.length_replicate]
    omega
  have hvalue : wordsNat (bvExtend w (val bound) w sgn ++
      List.replicate (crWords (w + 1) - crWords w) 0) = wordsNat (val bound) := by
    rw [wordsNat_append_zeros, hext.value]
  rw [boundSlot, hwidth]
  cases sgn with
  | false => exact ⟨_, ⟨hlen, hvalue, hx⟩, by simp [boundInt, offset]⟩
  | true =>
    have hi : (w - 1) / 64 < crWords (w + 1) := div_lt_crWords (by omega)
    refine ⟨wordsNat (val bound) ^^^ 2 ^ (w - 1), ⟨?_, ?_, ?_⟩, ?_⟩
    · simpa using hlen
    · simp only [if_true]
      rw [wordsNat_flip (by rw [hlen]; exact hi), hvalue]
    · exact Nat.xor_lt_two_pow hx (Nat.pow_lt_pow_right (by norm_num) (by omega))
    · simpa [boundInt, offset] using xor_signBit hw hx

end Slots

/-! ## The size of one range -/

/-- A bound keeps its value when it is extended by one bit. -/
lemma boundInt_extendNat (sgn : Bool) (hx : x < 2 ^ w) :
    boundInt sgn (w + 1) (extendNat (w + 1) w sgn x) = boundInt sgn w x := by
  cases sgn with
  | false =>
    have hlt : x < 2 ^ (w + 1) := hx.trans (Nat.pow_lt_pow_right (by norm_num) (Nat.lt_succ_self w))
    simp [boundInt, extendNat, Nat.mod_eq_of_lt hlt]
  | true =>
    simp only [boundInt, if_true, signedNat, extendNat]
    rw [BitVec.ofNat_toNat, BitVec.setWidth_eq, BitVec.toInt_signExtend_of_le (Nat.le_succ w)]

/-- A number of `w` bits and the integer it stands for are the same modulo `2 ^ w`. -/
lemma boundInt_emod (sgn : Bool) (hw : 0 < w) (hx : x < 2 ^ w) :
    ∃ k : ℤ, boundInt sgn w x = x + 2 ^ w * k := by
  cases sgn with
  | false => exact ⟨0, by simp [boundInt]⟩
  | true =>
    simp only [boundInt, if_true, signedNat_eq hw hx]
    split_ifs
    · exact ⟨-1, by ring⟩
    · exact ⟨0, by ring⟩

/-- The integers that a number of `w` bits stands for. -/
lemma boundInt_bounds (sgn : Bool) (hw : 0 < w) (hx : x < 2 ^ w) :
    0 ≤ boundInt sgn w x + offset sgn w ∧ boundInt sgn w x + offset sgn w < 2 ^ w := by
  cases sgn with
  | false =>
    simp only [boundInt, offset, Bool.false_eq_true, if_false]
    constructor
    · omega
    · exact_mod_cast hx
  | true =>
    simp only [boundInt, offset, if_true]
    rw [← xor_signBit hw hx]
    have hlt := Nat.xor_lt_two_pow hx (Nat.pow_lt_pow_right (show 1 < 2 by norm_num)
      (show w - 1 < w by omega))
    constructor
    · omega
    · exact_mod_cast hlt

/-- The difference of two bounds at one bit more, as long as the range is not reversed. -/
lemma holds_bvSub_bounds {lo hi : Words} (sgn : Bool) (hw : 0 < w)
    (hlo : Holds w lo x) (hhi : Holds w hi y) (hle : boundInt sgn w x ≤ boundInt sgn w y) :
    Holds (w + 1) (bvSub (bvExtend (w + 1) hi w sgn) (bvExtend (w + 1) lo w sgn) (w + 1))
      (boundInt sgn w y - boundInt sgn w x).toNat := by
  have hsub := (hhi.bvExtend (w + 1) sgn).bvSub (hlo.bvExtend (w + 1) sgn)
  have hx' := extendNat_lt (w + 1) w sgn x
  have hy' := extendNat_lt (w + 1) w sgn y
  obtain ⟨k, hk⟩ := boundInt_emod sgn (Nat.succ_pos w) hx'
  obtain ⟨l, hl⟩ := boundInt_emod sgn (Nat.succ_pos w) hy'
  rw [Nat.succ_eq_add_one, boundInt_extendNat sgn hlo.lt] at hk
  rw [Nat.succ_eq_add_one, boundInt_extendNat sgn hhi.lt] at hl
  have hxb := boundInt_bounds sgn hw hlo.lt
  have hyb := boundInt_bounds sgn hw hhi.lt
  have hmod : (boundInt sgn w y - boundInt sgn w x).toNat =
      (extendNat (w + 1) w sgn y + (2 ^ (w + 1) - extendNat (w + 1) w sgn x)) % 2 ^ (w + 1) := by
    have hcast : ((extendNat (w + 1) w sgn y + (2 ^ (w + 1) - extendNat (w + 1) w sgn x) : ℕ) : ℤ) =
        boundInt sgn w y - boundInt sgn w x + 2 ^ (w + 1) * (1 + k - l) := by
      rw [hk, hl]
      push_cast [Nat.cast_sub hx'.le]
      ring
    have hlt : boundInt sgn w y - boundInt sgn w x < 2 ^ (w + 1) := by
      rw [pow_succ]
      linarith [hxb.1, hyb.2, pow_pos (show (0 : ℤ) < 2 by norm_num) w]
    rw [← Nat.cast_inj (R := ℤ), Int.natCast_mod, hcast, Int.toNat_of_nonneg (by omega)]
    push_cast
    rw [Int.add_mul_emod_self_left, Int.emod_eq_of_lt (by omega) hlt]
  rw [hmod]
  exact hsub

/-- The comparison of two bounds at one bit more. -/
lemma less_bounds {lo hi : Words} (sgn : Bool) (hlo : Holds w lo x) (hhi : Holds w hi y) :
    (if sgn then bvScmp (bvExtend (w + 1) hi w sgn) (bvExtend (w + 1) lo w sgn) (w + 1) == .lt
      else bvUcmp (bvExtend (w + 1) hi w sgn) (bvExtend (w + 1) lo w sgn) == .lt) =
      decide (boundInt sgn w y < boundInt sgn w x) := by
  have hlo' := hlo.bvExtend (w + 1) sgn
  have hhi' := hhi.bvExtend (w + 1) sgn
  have hx := boundInt_extendNat sgn hlo.lt
  have hy := boundInt_extendNat sgn hhi.lt
  rw [← hx, ← hy]
  cases sgn with
  | false =>
    rw [hhi'.bvUcmp hlo']
    simp [boundInt, compare_lt_iff_lt, beq_eq_decide]
  | true =>
    rw [hhi'.bvScmp hlo' (Nat.succ_pos w)]
    simp [boundInt, compare_lt_iff_lt, beq_eq_decide]

lemma wordsNat_padded {d : Words} (h : d.length ≤ limbs) :
    wordsNat ((List.range limbs).map fun i => if i < d.length then d.getD i 0 else 0) =
      wordsNat d := by
  refine Nat.eq_of_testBit_eq fun i => ?_
  rw [testBit_wordsNat_map_range, testBit_wordsNat]
  by_cases hi : i / 64 < d.length
  · simp [hi, hi.trans_le h]
  · simp [hi]

/-- Adding one to the lowest word only. -/
lemma wordsNat_bnAdd_one (h : 0 < out.length) :
    wordsNat (bnAdd out [1] 1) + (if 2 ^ 64 ∣ wordsNat out + 1 then 2 ^ 64 else 0) =
      wordsNat out + 1 := by
  obtain ⟨x, rest, rfl⟩ := List.exists_cons_of_length_pos h
  rw [bnAdd_lowest h, List.modify_zero_cons, wordsNat_cons, wordsNat_cons, BitVec.toNat_add]
  have hx := x.isLt
  have hone : (1 : BitVec 64).toNat = 1 := rfl
  rw [hone]
  by_cases hmax : x.toNat = 2 ^ 64 - 1
  · rw [if_pos (by omega)]
    omega
  · rw [if_neg (by omega)]
    omega

section Item

variable {p : CrProblem} {val : ℕ → Words} {item : CrDistItem} {w limbs : ℕ}

lemma wordsNat_crItemSize_of_lt (h : ItemKnown p val w item)
    (hlt : itemHigh p val item < itemLow p val item) :
    wordsNat (crItemSize p val item limbs) = 0 := by
  have hless := less_bounds item.loSigned h.lo_masked h.hi_masked
  simp only [itemLow, itemHigh, h.lo_width, h.hi_width] at hlt
  simp only [crItemSize, h.lo_width, h.hi_width, hless, hlt, decide_true, if_true]
  exact wordsNat_replicate_zero limbs

/-- What `cr_item_size` computes: the number of integers from the lower to the upper bound, less
the carry that is lost when it is a multiple of `2 ^ 64`. -/
lemma wordsNat_crItemSize_of_le (hw : 0 < w) (h : ItemKnown p val w item)
    (hlimbs : crWords (w + 1) ≤ limbs) (hle : itemLow p val item ≤ itemHigh p val item) :
    wordsNat (crItemSize p val item limbs) +
        (if 2 ^ 64 ∣ (itemHigh p val item - itemLow p val item).toNat + 1 then 2 ^ 64 else 0) =
      (itemHigh p val item - itemLow p val item).toNat + 1 := by
  have hless := less_bounds item.loSigned h.lo_masked h.hi_masked
  simp only [itemLow, itemHigh, h.lo_width, h.hi_width] at hle ⊢
  have hd := holds_bvSub_bounds item.loSigned hw h.lo_masked h.hi_masked hle
  simp only [crItemSize, h.lo_width, h.hi_width, hless, hle.not_gt, decide_false,
    Bool.false_eq_true, if_false]
  generalize bvSub _ _ (w + 1) = d at hd ⊢
  -- the words of the difference, padded to the caller's array
  have hpos := crWords_pos (w + 1)
  have hpad := wordsNat_padded (hd.length.trans_le hlimbs)
  rw [hd.value, hd.length] at hpad
  rw [← hpad]
  exact wordsNat_bnAdd_one (by simp; omega)

end Item

/-! ## Adding up the ranges -/

/-- The words after the first `n` words of a number are added one by one. -/
lemma foldl_addWords (d : ℕ → BitVec 64) {n : ℕ} (hlen : out.length = limbs) (hn : n ≤ limbs) :
    ∃ r, (List.range n).foldl (fun out k =>
        if k < limbs then out.take k ++ bnAdd (out.drop k) [d k] 1 else out) out = r ∧
      r.length = limbs ∧
      ∀ j, r.getD j 0 = if j < n then out.getD j 0 + d j else out.getD j 0 := by
  induction n with
  | zero => exact ⟨out, rfl, hlen, fun j => by simp⟩
  | succ n ih =>
    obtain ⟨r, hr, hrlen, hget⟩ := ih (Nat.le_of_succ_le hn)
    refine ⟨r.modify n (· + d n), ?_, by simpa using hrlen, fun j => ?_⟩
    · rw [List.range_succ, List.foldl_append, hr, List.foldl_cons, List.foldl_nil,
        if_pos (Nat.lt_of_succ_le hn), bnAdd_word (by omega)]
    · rw [getD_modify _ (by omega), hget, hget]
      rcases lt_trichotomy j n with hj | rfl | hj
      · rw [if_neg hj.ne, if_pos hj, if_pos (by omega)]
      · rw [if_pos rfl, if_neg (lt_irrefl j), if_pos (Nat.lt_succ_self j)]
      · rw [if_neg hj.ne', if_neg (by omega), if_neg (by omega)]

/-- The words after a range is added: each has its digit of the difference added, the lowest one
more, and no carry is passed on. -/
lemma addRange_spec {cl ch : Words} (hcl : Slot w cl x) (hch : Slot w ch y)
    (hxy : x ≤ y) (hlen : out.length = limbs) (hlimbs : crWords (w + 1) ≤ limbs) :
    (addRange w limbs out cl ch).length = limbs ∧
      ∀ j, ((addRange w limbs out cl ch).getD j 0).toNat =
        ((out.getD j 0).toNat + ((y - x) / 2 ^ (64 * j) % 2 ^ 64 + if j = 0 then 1 else 0)) %
          2 ^ 64 := by
  have hpow : 2 ^ w < 2 ^ (w + 1) := Nat.pow_lt_pow_right (by norm_num) (Nat.lt_succ_self w)
  have hcl' : Holds (w + 1) cl x := ⟨hcl.length, hcl.value, hcl.lt.trans hpow⟩
  have hch' : Holds (w + 1) ch y := ⟨hch.length, hch.value, hch.lt.trans hpow⟩
  have hd := hch'.bvSub hcl'
  have hdiff : (y + (2 ^ (w + 1) - x)) % 2 ^ (w + 1) = y - x := by
    have hx := hcl'.lt
    have hy := hch'.lt
    rw [show y + (2 ^ (w + 1) - x) = y - x + 2 ^ (w + 1) by omega, Nat.add_mod_right,
      Nat.mod_eq_of_lt (by omega)]
  rw [hdiff] at hd
  have hpos := crWords_pos (w + 1)
  obtain ⟨r, hr, hrlen, hget⟩ := foldl_addWords (fun k => (bvSub ch cl (w + 1)).getD k 0) hlen hlimbs
  have hadd : addRange w limbs out cl ch = r.modify 0 (· + 1) := by
    rw [addRange, hr, bnAdd_lowest (by omega)]
  refine ⟨by rw [hadd]; simpa using hrlen, fun j => ?_⟩
  -- the difference has no words beyond its array
  have hrj : r.getD j 0 = out.getD j 0 + (bvSub ch cl (w + 1)).getD j 0 := by
    rw [hget]
    split_ifs with hj
    · rfl
    · rw [List.getD_eq_default (bvSub ch cl (w + 1)) _ (by rw [hd.length]; omega)]
      simp
  have hdj : ((bvSub ch cl (w + 1)).getD j 0).toNat = (y - x) / 2 ^ (64 * j) % 2 ^ 64 := by
    rw [toNat_getD, hd.value]
  have hrj' : (r.getD j 0).toNat =
      ((out.getD j 0).toNat + (y - x) / 2 ^ (64 * j) % 2 ^ 64) % 2 ^ 64 := by
    rw [hrj, BitVec.toNat_add, hdj]
  rw [hadd, getD_modify _ (by omega)]
  by_cases hj : j = 0
  · subst hj
    rw [if_pos rfl, if_pos rfl, BitVec.toNat_add, hrj', Nat.mod_add_mod, add_assoc]
    rfl
  · rw [if_neg hj, if_neg hj, hrj', add_zero]

/-- The slots of the sorted array hold the bounds of a list of intervals. -/
def SlotsHold (w : ℕ) (ranges : List (Words × Words)) (spans : List Span) : Prop :=
  List.Forall₂ (fun r s => Slot w r.1 s.lo ∧ Slot w r.2 s.hi ∧ s.lo ≤ s.hi) ranges spans

lemma limbSum_nil (k : ℕ) : limbSum [] k = 0 := by
  simp [limbSum]

lemma limbSum_cons (s : Span) (spans : List Span) (k : ℕ) :
    limbSum (s :: spans) k =
      ((s.hi - s.lo) / 2 ^ (64 * k) % 2 ^ 64 + if k = 0 then 1 else 0) + limbSum spans k := by
  simp only [limbSum, List.map_cons, List.sum_cons, List.length_cons]
  split_ifs <;> omega

/-- What the second loop of `cr_dist_support` adds to the words: those of the joined ranges. -/
lemma sumRanges_spec {cl ch : Words} {current : Span}
    {ranges : List (Words × Words)} {spans : List Span} (hcl : Slot w cl current.lo)
    (hch : Slot w ch current.hi) (hle : current.lo ≤ current.hi)
    (hranges : SlotsHold w ranges spans) (hlen : out.length = limbs)
    (hlimbs : crWords (w + 1) ≤ limbs) :
    (sumRanges w limbs cl ch ranges out).length = limbs ∧
      ∀ j, ((sumRanges w limbs cl ch ranges out).getD j 0).toNat =
        ((out.getD j 0).toNat +
          limbSum (Span.joinBy (fun c s => decide (s.lo ≤ c.hi)) current spans) j) % 2 ^ 64 := by
  induction hranges generalizing current cl ch out with
  | nil =>
    obtain ⟨hlen', hget⟩ := addRange_spec hcl hch hle hlen hlimbs
    refine ⟨hlen', fun j => ?_⟩
    rw [sumRanges, hget, Span.joinBy, limbSum_cons, limbSum_nil, add_zero]
  | @cons r s ranges spans hrs hranges ih =>
    obtain ⟨hl, hh, hs⟩ := hrs
    have hover : slotCmp w r.1 ch ≠ .gt ↔ s.lo ≤ current.hi := by
      rw [slotCmp_eq hl hch, ne_eq, compare_gt_iff_gt]
      exact not_lt
    rw [sumRanges, Span.joinBy]
    by_cases h : s.lo ≤ current.hi
    · -- the range overlaps the current one and extends it
      have hmax : Slot w (if slotCmp w r.2 ch = .gt then r.2 else ch) (max current.hi s.hi) := by
        have hcmp := slotCmp_eq hh hch
        split_ifs with hgt
        · rw [hcmp, compare_gt_iff_gt] at hgt
          rwa [max_eq_right hgt.le]
        · rw [hcmp, compare_gt_iff_gt] at hgt
          rwa [max_eq_left (Nat.le_of_not_lt hgt)]
      rw [if_pos (hover.2 h), if_pos (decide_eq_true h)]
      exact @ih out cl _ ⟨current.lo, max current.hi s.hi⟩ hcl hmax
        (hle.trans (le_max_left _ _)) hlen
    · obtain ⟨hlen', hget⟩ := addRange_spec hcl hch hle hlen hlimbs
      obtain ⟨hlen'', hget'⟩ := ih hl hh hs hlen'
      rw [if_neg (mt hover.1 h), if_neg (by simpa using h)]
      refine ⟨hlen'', fun j => ?_⟩
      rw [hget', hget, limbSum_cons, Nat.mod_add_mod, add_assoc]

/-! ## Collecting the ranges -/

section Forall₂

variable {α β : Type*} {R : α → β → Prop} {P : α → Bool} {Q : β → Bool} {as : List α} {bs : List β}

lemma forall₂_dropWhile (h : List.Forall₂ R as bs) (hPQ : ∀ a b, R a b → P a = Q b) :
    List.Forall₂ R (as.dropWhile P) (bs.dropWhile Q) ∧
      List.Forall₂ R (as.takeWhile P) (bs.takeWhile Q) := by
  induction h with
  | nil => exact ⟨List.Forall₂.nil, List.Forall₂.nil⟩
  | @cons a b as bs hab h ih =>
    rw [List.dropWhile_cons, List.dropWhile_cons, List.takeWhile_cons, List.takeWhile_cons,
      hPQ a b hab]
    split_ifs
    · exact ⟨ih.1, ih.2.cons hab⟩
    · exact ⟨h.cons hab, List.Forall₂.nil⟩

lemma forall₂_rdropWhile (h : List.Forall₂ R as bs) (hPQ : ∀ a b, R a b → P a = Q b) :
    List.Forall₂ R (as.rdropWhile P) (bs.rdropWhile Q) ∧
      List.Forall₂ R (as.rtakeWhile P) (bs.rtakeWhile Q) := by
  obtain ⟨hdrop, htake⟩ := forall₂_dropWhile (List.forall₂_reverse_iff.2 h) hPQ
  exact ⟨List.forall₂_reverse_iff.2 hdrop, List.forall₂_reverse_iff.2 htake⟩

end Forall₂

section Collect

variable {p : CrProblem} {val : ℕ → Words} {item : CrDistItem} {w : ℕ}
  {ranges : List (Words × Words)} {sorted : List Span}

lemma slotsHold_boundSlots (hw : 0 < w) (h : ItemKnown p val w item) :
    Slot w (boundSlot p val w item.loSigned item.lo) (itemSpan p val w item).lo ∧
      Slot w (boundSlot p val w item.loSigned item.hi) (itemSpan p val w item).hi := by
  obtain ⟨n, hn, hlow⟩ := slot_boundSlot item.loSigned hw h.lo_width h.lo_masked
  obtain ⟨m, hm, hhigh⟩ := slot_boundSlot item.loSigned hw h.hi_width h.hi_masked
  simp only [itemSpan, itemLow, itemHigh, h.lo_width, h.hi_width, ← hlow, ← hhigh]
  exact ⟨hn, hm⟩

/-- A round of the first loop of `cr_dist_support`. -/
lemma slotsHold_insertItem (hw : 0 < w) (h : ItemKnown p val w item)
    (hranges : SlotsHold w ranges sorted) :
    SlotsHold w (insertItem p val w ranges item)
      (((([item].filter fun item => !crDistItemZero p val item).map (itemSpan p val w)).filter
        fun s => s.lo ≤ s.hi).foldl Span.insertByLo sorted) := by
  obtain ⟨hl, hh⟩ := slotsHold_boundSlots hw h
  rw [insertItem]
  by_cases hzero : crDistItemZero p val item
  · simpa [hzero] using hranges
  have hrev : slotCmp w (boundSlot p val w item.loSigned item.hi)
      (boundSlot p val w item.loSigned item.lo) = .lt ↔
      ¬(itemSpan p val w item).lo ≤ (itemSpan p val w item).hi := by
    rw [slotCmp_eq hh hl, compare_lt_iff_lt, not_le]
  by_cases hle : (itemSpan p val w item).lo ≤ (itemSpan p val w item).hi
  · obtain ⟨hdrop, htake⟩ := forall₂_rdropWhile (P := fun r => decide (slotCmp w r.1
      (boundSlot p val w item.loSigned item.lo) = .gt))
      (Q := fun t => decide ((itemSpan p val w item).lo < t.lo)) hranges (fun r s hrs => by
        rw [slotCmp_eq hrs.1 hl, decide_eq_decide]
        exact compare_gt_iff_gt)
    rw [if_neg hzero, if_neg (by rw [hrev]; exact not_not.2 hle)]
    simp only [hzero, List.filter_cons, Bool.not_false, if_true, List.filter_nil, List.map_cons,
      List.map_nil, hle, decide_true, List.foldl_cons, List.foldl_nil]
    exact List.rel_append hdrop (htake.cons ⟨hl, hh, hle⟩)
  · rw [if_neg hzero, if_pos (hrev.2 hle)]
    simpa [hzero, hle] using hranges

/-- The first loop of `cr_dist_support` sorts the ranges by their lower bounds. -/
lemma slotsHold_foldl {items : List CrDistItem} (hw : 0 < w)
    (hitems : ∀ item ∈ items, ItemKnown p val w item) (hranges : SlotsHold w ranges sorted) :
    SlotsHold w (items.foldl (insertItem p val w) ranges)
      ((((items.filter fun item => !crDistItemZero p val item).map (itemSpan p val w)).filter
        fun s => s.lo ≤ s.hi).foldl Span.insertByLo sorted) := by
  induction items generalizing ranges sorted with
  | nil => exact hranges
  | cons item items ih =>
    obtain ⟨hitem, hitems⟩ := List.forall_mem_cons.1 hitems
    have hstep := ih hitems (slotsHold_insertItem hw hitem hranges)
    rw [← List.foldl_append, ← List.filter_append, ← List.map_append, ← List.filter_append] at hstep
    exact hstep

end Collect

/-! ## Exact sizes -/

section Exact

variable {p : CrProblem} {val : ℕ → Words} {d : CrDist} {w limbs : ℕ} {sgn : Bool}

/-- What the words of `cr_dist_support` are. -/
lemma crDistSupport_limb (hd : DistKnown p val d w sgn) (hlimbs : crWords (w + 1) ≤ limbs) :
    (crDistSupport p val d limbs).length = limbs ∧
      ∀ j, ((crDistSupport p val d limbs).getD j 0).toNat =
        limbSum (supportRanges p val d w) j % 2 ^ 64 := by
  have hnone : (List.replicate limbs (0 : BitVec 64)).length = limbs ∧ ∀ j,
      ((List.replicate limbs (0 : BitVec 64)).getD j 0).toNat = limbSum [] j % 2 ^ 64 := by
    refine ⟨List.length_replicate, fun j => ?_⟩
    rw [toNat_getD, wordsNat_replicate_zero, limbSum_nil, Nat.zero_div]
  rw [crDistSupport]
  split_ifs with hcount
  · have hlist : p.itemList d = [] := by simp [CrProblem.itemList, hcount]
    rw [supportRanges, hlist]
    exact hnone
  · have hfirst : p.distItems d.itemFirst ∈ p.itemList d :=
      List.mem_map.2 ⟨0, List.mem_range.2 (pos_of_ne_zero hcount), rfl⟩
    have hsorted := slotsHold_foldl hd.pos hd.known (List.Forall₂.nil : SlotsHold w [] [])
    simp only [(hd.known _ hfirst).lo_width, supportRanges, Span.joinOverlaps]
    generalize (p.itemList d).foldl (insertItem p val w) [] = ranges at hsorted ⊢
    generalize List.foldl Span.insertByLo [] _ = sorted at hsorted ⊢
    cases hsorted with
    | nil => exact hnone
    | @cons r s ranges spans hrs hranges =>
      obtain ⟨hlen, hget⟩ := sumRanges_spec hrs.1 hrs.2.1 hrs.2.2 hranges
        (List.length_replicate : (List.replicate limbs (0 : BitVec 64)).length = limbs) hlimbs
      refine ⟨hlen, fun j => ?_⟩
      rw [hget, toNat_getD, wordsNat_replicate_zero, Nat.zero_div, Nat.zero_mod, zero_add]

/-- The words that should come out add up to the number of values. -/
lemma sum_limbSum {spans : List Span} (hlimbs : 0 < limbs)
    (h : ∀ s ∈ spans, s.lo ≤ s.hi ∧ s.hi < 2 ^ (64 * limbs)) :
    ∑ k ∈ range limbs, limbSum spans k * 2 ^ (64 * k) = (spans.map Span.size).sum := by
  induction spans with
  | nil => simp [limbSum_nil]
  | cons s spans ih =>
    obtain ⟨hs, hspans⟩ := List.forall_mem_cons.1 h
    have hone : ∑ k ∈ range limbs, (if k = 0 then 1 else 0) * 2 ^ (64 * k) = 1 := by
      rw [sum_eq_single_of_mem 0 (mem_range.2 hlimbs) (fun k _ hk => by simp [hk])]
      rfl
    simp only [limbSum_cons, add_mul, sum_add_distrib]
    rw [ih hspans, hone, sum_digits (show s.hi - s.lo < 2 ^ (64 * limbs) by omega), List.map_cons,
      List.sum_cons, Span.size]
    omega

/-- What lies between two values of a type is a value of it. -/
lemma InType.of_le_of_le {a b v : ℤ} (ha : InType sgn w a) (hb : InType sgn w b) (hav : a ≤ v)
    (hvb : v ≤ b) : InType sgn w v := by
  cases sgn with
  | false | true => exact ⟨ha.1.trans hav, hvb.trans_lt hb.2⟩

lemma inType_boundInt (sgn : Bool) (hw : 0 < w) (hx : x < 2 ^ w) :
    InType sgn w (boundInt sgn w x) := by
  have hbounds := boundInt_bounds sgn hw hx
  cases sgn with
  | false => simpa [InType, offset] using hbounds
  | true =>
    have hpow : (2 : ℤ) ^ w = 2 * 2 ^ (w - 1) := by
      rw [← pow_succ', Nat.sub_add_cancel hw]
    simp only [InType, offset, if_true] at hbounds ⊢
    omega

lemma mem_itemValues (hw : 0 < w) (h : ItemKnown p val w item) (v : ℤ) :
    v ∈ itemValues p val w item ↔ itemLow p val item ≤ v ∧ v ≤ itemHigh p val item := by
  refine ⟨fun hv => ⟨hv.1, hv.2.1⟩, fun hv => ⟨hv.1, hv.2, ?_⟩⟩
  have hlow := inType_boundInt item.loSigned hw h.lo_masked.lt
  have hhigh := inType_boundInt item.loSigned hw h.hi_masked.lt
  rw [itemLow, itemHigh, h.lo_width, h.hi_width] at hv
  exact hlow.of_le_of_le hhigh hv.1 hv.2

lemma ncard_itemValues (hw : 0 < w) (h : ItemKnown p val w item) :
    (itemValues p val w item).ncard = (itemHigh p val item + 1 - itemLow p val item).toNat := by
  have hset : itemValues p val w item =
      (Finset.Icc (itemLow p val item) (itemHigh p val item) : Set ℤ) := by
    ext v
    rw [mem_itemValues hw h, coe_Icc, Set.mem_Icc]
  rw [hset, Set.ncard_coe_finset, Int.card_Icc]

/-- The span of an item with known bounds is its range, moved by the offset. -/
lemma itemSpan_holds (hw : 0 < w) (h : ItemKnown p val w item) (n : ℕ) :
    (itemSpan p val w item).Holds n ↔
      itemLow p val item ≤ n - offset item.loSigned w ∧
        n - offset item.loSigned w ≤ itemHigh p val item := by
  have hlow := boundInt_bounds item.loSigned hw h.lo_masked.lt
  have hhigh := boundInt_bounds item.loSigned hw h.hi_masked.lt
  simp only [Span.Holds, itemSpan, itemLow, itemHigh, h.lo_width, h.hi_width]
  omega

lemma itemSpan_hi_lt (hw : 0 < w) (h : ItemKnown p val w item) :
    (itemSpan p val w item).hi < 2 ^ w := by
  obtain ⟨hnonneg, hlt⟩ := boundInt_bounds item.loSigned hw h.hi_masked.lt
  simp only [itemSpan, itemHigh, h.hi_width]
  rw [Int.toNat_lt hnonneg]
  exact_mod_cast hlt

lemma mem_supportRanges (n : ℕ) :
    (∃ s ∈ supportRanges p val d w, s.Holds n) ↔
      ∃ item ∈ p.itemList d, crDistItemZero p val item = false ∧ (itemSpan p val w item).Holds n := by
  rw [supportRanges, (Span.joinOverlaps_spec fun s hs => of_decide_eq_true
    (List.mem_filter.1 hs).2).2 n]
  constructor
  · rintro ⟨s, hs, hn⟩
    obtain ⟨item, hitem, rfl⟩ := List.mem_map.1 (List.mem_filter.1 hs).1
    obtain ⟨hmem, hzero⟩ := List.mem_filter.1 hitem
    exact ⟨item, hmem, by simpa using hzero, hn⟩
  · rintro ⟨item, hmem, hzero, hn⟩
    refine ⟨_, List.mem_filter.2 ⟨List.mem_map_of_mem (List.mem_filter.2 ⟨hmem, ?_⟩), ?_⟩, hn⟩
    · simp [hzero]
    · exact decide_eq_true (hn.1.trans hn.2)

lemma separated_supportRanges : Span.Separated id (supportRanges p val d w) :=
  (Span.joinOverlaps_spec fun _ hs => of_decide_eq_true (List.mem_filter.1 hs).2).1

lemma ncard_supportValues (hd : DistKnown p val d w sgn) :
    (supportValues p val d w).ncard = ((supportRanges p val d w).map Span.size).sum := by
  have himage : supportValues p val d w = (fun n : ℕ => (n : ℤ) - offset sgn w) ''
      {n | ∃ s ∈ supportRanges p val d w, s.Holds n} := by
    ext v
    simp only [supportValues, Set.mem_image, Set.mem_ofPred_eq, mem_supportRanges]
    constructor
    · rintro ⟨item, hmem, hzero, hv⟩
      have hknown := hd.known item hmem
      rw [mem_itemValues hd.pos hknown] at hv
      have hlow := (boundInt_bounds item.loSigned hd.pos hknown.lo_masked.lt).1
      have hcast : ((v + offset sgn w).toNat : ℤ) - offset sgn w = v := by
        rw [hd.signed item hmem] at hlow
        rw [itemLow, hknown.lo_width, hd.signed item hmem] at hv
        omega
      refine ⟨(v + offset sgn w).toNat, ⟨item, hmem, hzero, ?_⟩, hcast⟩
      rw [itemSpan_holds hd.pos hknown, hd.signed item hmem, hcast]
      exact hv
    · rintro ⟨n, ⟨item, hmem, hzero, hn⟩, rfl⟩
      rw [itemSpan_holds hd.pos (hd.known item hmem), hd.signed item hmem] at hn
      exact ⟨item, hmem, hzero, (mem_itemValues hd.pos (hd.known item hmem) _).2 hn⟩
  have hinj : Function.Injective fun n : ℕ => (n : ℤ) - offset sgn w := fun a b hab => by
    simp only at hab
    omega
  rw [himage, Set.ncard_image_of_injective _ hinj, separated_supportRanges.ncard_eq]

/-- The sizes are exact if and only if no carry leaves a word: for one range, its number of values
must not be a multiple of `2 ^ 64`; for the union of the ranges, the words of the sizes must add up
below `2 ^ 64`, each on its own. -/
theorem dist_sizes_exact_iff (hd : DistKnown p val d w sgn) (hlimbs : crWords (w + 1) ≤ limbs) :
    (∀ item ∈ p.itemList d,
      (wordsNat (crItemSize p val item limbs) = (itemValues p val w item).ncard ↔
        ¬(itemLow p val item ≤ itemHigh p val item ∧
          2 ^ 64 ∣ itemHigh p val item - itemLow p val item + 1))) ∧
    (wordsNat (crDistSupport p val d limbs) = (supportValues p val d w).ncard ↔
      ∀ k, limbSum (supportRanges p val d w) k < 2 ^ 64) := by
  constructor
  · intro item hmem
    rw [ncard_itemValues hd.pos (hd.known item hmem)]
    by_cases hle : itemLow p val item ≤ itemHigh p val item
    · have hsize := wordsNat_crItemSize_of_le hd.pos (hd.known item hmem) hlimbs hle
      have hcount : (itemHigh p val item + 1 - itemLow p val item).toNat =
          (itemHigh p val item - itemLow p val item).toNat + 1 := by omega
      have hdvd : (2 ^ 64 : ℤ) ∣ itemHigh p val item - itemLow p val item + 1 ↔
          2 ^ 64 ∣ (itemHigh p val item - itemLow p val item).toNat + 1 := by omega
      rw [hcount, hdvd]
      split_ifs at hsize with hcarry
      · simp only [hle, hcarry, and_self, not_true_eq_false, iff_false]
        omega
      · simp only [hcarry, and_false, not_false_eq_true, iff_true]
        omega
    · rw [wordsNat_crItemSize_of_lt (hd.known item hmem) (not_le.1 hle)]
      simp only [hle, false_and, not_false_eq_true, iff_true]
      omega
  · obtain ⟨hlen, hget⟩ := crDistSupport_limb hd hlimbs
    have hpos := crWords_pos (w + 1)
    have hfits : ∀ s ∈ supportRanges p val d w, s.lo ≤ s.hi ∧ s.hi < 2 ^ (64 * limbs) := by
      intro s hs
      have hs' := separated_supportRanges.nonempty s hs
      obtain ⟨item, hmem, -, hholds⟩ := (mem_supportRanges s.hi).1 ⟨s, hs, hs', le_refl _⟩
      have hlt := itemSpan_hi_lt hd.pos (hd.known item hmem)
      have hw : w ≤ 64 * limbs := by
        have := le_crWords (w + 1)
        omega
      exact ⟨hs', (hholds.2.trans_lt hlt).trans_le (Nat.pow_le_pow_right (by norm_num) hw)⟩
    have hwords : wordsNat (crDistSupport p val d limbs) =
        ∑ k ∈ range limbs, limbSum (supportRanges p val d w) k % 2 ^ 64 * 2 ^ (64 * k) := by
      rw [wordsNat_eq_sum, hlen]
      exact sum_congr rfl fun k _ => by rw [hget]
    have hhigh : ∀ k, limbs ≤ k → limbSum (supportRanges p val d w) k = 0 := by
      intro k hk
      rw [limbSum, if_neg (by omega), add_zero, List.sum_eq_zero]
      intro x hx
      obtain ⟨s, hs, rfl⟩ := List.mem_map.1 hx
      have hlt : s.hi - s.lo < 2 ^ (64 * k) := (Nat.sub_le _ _).trans_lt
        ((hfits s hs).2.trans_le (Nat.pow_le_pow_right (by norm_num) (by omega)))
      rw [Nat.div_eq_of_lt hlt, Nat.zero_mod]
    rw [ncard_supportValues hd, ← sum_limbSum (by omega) hfits, hwords,
      sum_eq_sum_iff_of_le fun k _ => Nat.mul_le_mul_right _ (Nat.mod_le _ _)]
    constructor
    · intro h k
      by_cases hk : k < limbs
      · have heq := Nat.eq_of_mul_eq_mul_right (Nat.two_pow_pos _) (h k (mem_range.2 hk))
        rw [← heq]
        exact Nat.mod_lt _ (by norm_num)
      · rw [hhigh k (by omega)]
        norm_num
    · intro h k _
      rw [Nat.mod_eq_of_lt (h k)]

end Exact

/-! ## A dist of one range -/

/-- `x dist {[lo:hi] := 1}`, with the range given `count` times, for an unsigned variable `x` of at
most 64 bits. -/
def rangeDist (w : ℕ) (lo hi : BitVec 64) (count : ℕ) : CrProblem where
  nodes n := match n with
    | 0 => ⟨.var, false, w, 0, 0, 0⟩
    | 1 => ⟨.const, false, w, 0, 0, 0⟩
    | 2 => ⟨.const, false, w, 1, 0, 0⟩
    | 3 => ⟨.ge, false, 1, 0, 1, 0⟩
    | 4 => ⟨.le, false, 1, 0, 2, 0⟩
    | 5 => ⟨.land, false, 1, 3, 4, 0⟩
    | _ => ⟨.dist, false, 1, 0, 0, 0⟩
  nodeCount := 7
  args _ := 0
  argCount := 0
  consts i := if i = 0 then lo else hi
  constCount := 2
  vars _ := ⟨⟨w, false⟩, none, false⟩
  varCount := 1
  blockRoots _ := 6
  blockCount := 1
  leaves _ := ⟨1, false⟩
  leafCount := 0
  calls _ := ⟨⟨1, false⟩, 0, 0⟩
  callCount := 0
  dists _ := ⟨0, none, 0, count⟩
  distCount := 1
  distItems _ := ⟨5, 1, 2, none, false, false⟩
  distItemCount := count
  tables _ := ⟨0, 0⟩
  tableCount := 0
  tableItems _ := none
  tableItemCount := 0

/-- The values of the two bounds of `rangeDist`. -/
def rangeValues (lo hi : BitVec 64) (n : ℕ) : Words := if n = 2 then [hi] else [lo]

section RangeDist

variable {w count : ℕ} {lo hi : BitVec 64}

lemma distKnown_rangeDist (hpos : 0 < w) (hw : w ≤ 64) (hlo : lo.toNat < 2 ^ w)
    (hhi : hi.toNat < 2 ^ w) :
    let p := rangeDist w lo hi count
    DistKnown p (rangeValues lo hi) (p.dists 0) w false := by
  intro p
  have hone : crWords w = 1 := by
    rw [crWords_of_pos hpos]
    omega
  have hmem : ∀ item ∈ p.itemList (p.dists 0), item = ⟨5, 1, 2, none, false, false⟩ := by
    intro item hitem
    obtain ⟨_, -, rfl⟩ := List.mem_map.1 hitem
    rfl
  refine ⟨hpos, fun item hitem => ?_, fun item hitem => by rw [hmem item hitem]⟩
  rw [hmem item hitem]
  exact ⟨rfl, rfl, ⟨hone.symm, rfl, by simpa [rangeValues] using hlo⟩,
    ⟨hone.symm, rfl, by simpa [rangeValues] using hhi⟩⟩

end RangeDist

/-- The range from 10 to 20 has eleven values, and given twice it still supports eleven. -/
theorem dist_sizes_exact_small :
    let p := rangeDist 8 10 20 2
    let val := rangeValues 10 20
    (∀ item ∈ p.itemList (p.dists 0),
      wordsNat (crItemSize p val item 3) = (itemValues p val 8 item).ncard) ∧
    wordsNat (crDistSupport p val (p.dists 0) 3) = 11 ∧
      (supportValues p val (p.dists 0) 8).ncard = 11 := by
  intro p val
  have hknown : DistKnown p val (p.dists 0) 8 false :=
    distKnown_rangeDist (by decide) (by decide) (by decide) (by decide)
  have hexact := dist_sizes_exact_iff hknown (by decide : crWords (8 + 1) ≤ 3)
  have hsize : wordsNat (crDistSupport p val (p.dists 0) 3) = 11 := by decide
  have hranges : supportRanges p val (p.dists 0) 8 = [⟨10, 20⟩] := by decide
  refine ⟨fun item hitem => (hexact.1 item hitem).2 (by revert item; decide), hsize, ?_⟩
  rw [← hsize, hexact.2.2 fun k => ?_]
  rw [hranges]
  cases k <;> simp +arith [limbSum, Nat.mod_lt]

/-- The full range of a 64-bit variable has `2 ^ 64` values, but both sizes are zero. -/
theorem dist_sizes_full_range :
    let p := rangeDist 64 0 (BitVec.allOnes 64) 1
    let val := rangeValues 0 (BitVec.allOnes 64)
    let item : CrDistItem := ⟨5, 1, 2, none, false, false⟩
    p.Valid ∧ DistKnown p val (p.dists 0) 64 false ∧
      wordsNat (crItemSize p val item 4) = 0 ∧ (itemValues p val 64 item).ncard = 2 ^ 64 ∧
      wordsNat (crDistSupport p val (p.dists 0) 4) = 0 ∧
      (supportValues p val (p.dists 0) 64).ncard = 2 ^ 64 := by
  intro p val item
  have hknown : DistKnown p val (p.dists 0) 64 false :=
    distKnown_rangeDist (by decide) (by decide) (by decide) (by decide)
  have hvalues : (itemValues p val 64 item).ncard = 2 ^ 64 := by
    rw [ncard_itemValues hknown.pos (hknown.known item (List.mem_singleton_self _))]
    decide +kernel
  have hsupport : supportValues p val (p.dists 0) 64 = itemValues p val 64 item := by
    ext v
    constructor
    · rintro ⟨_, hitem, -, hv⟩
      rwa [List.mem_singleton.1 hitem] at hv
    · exact fun hv => ⟨item, List.mem_singleton_self _, rfl, hv⟩
  refine ⟨⟨⟨?_, ?_, ?_⟩, ?_, ?_⟩, hknown, ?_, hvalues, ?_, ?_⟩
  · decide +kernel
  · decide +kernel
  · decide +kernel
  · intro n
    simp only [p, rangeDist]
    split <;> decide
  · intro t
    exact Nat.two_pow_pos 32
  · decide +kernel
  · decide +kernel
  · rw [hsupport]
    exact hvalues

end Lapligence.Constraints
