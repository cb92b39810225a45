import Lapligence.Value.Selections

/-!
# Assemblies

Concatenation, replication, streaming and the merges of the conditional operator (`value_gmp/assembly.c` and
their narrow forms in `selection_inline.h`).  The merges finish their results.  The others do not: they decide
from the operands whether the result has a plane `b`, and copy every bit of the operands into it.  So their
results are canonical because nothing is written above the width and because every bit of an operand is
somewhere in the result (`canonical_of_planes`).
-/

namespace Lapligence.Value

open WordLists Constraints List Nat

variable {v src : G4} {w bit fuel : ℕ}

/-! ## The functions -/

/-- The concatenation of two narrow values in two words. -/
def concatWords (out : Words) (hi lo : BitVec 64) (loWidth : ℕ) : Words :=
  (out.set 0 (lo ||| if loWidth < 64 then hi <<< loWidth else 0)).set 1
    (if loWidth = 64 then hi else hi >>> (64 - loWidth))

/-- `llg_gmp_sv4_concat_wide`. -/
def llgGmpSv4ConcatWide (hi lo : G4) (width : ℕ) : G4 :=
  let result := llgGmpSv4New width false (llgGmpSv4IsUnknown hi || llgGmpSv4IsUnknown lo)
  if width > 64 ∧ hi.width ≤ 64 ∧ lo.width ≤ 64 then
    { result with
      a := concatWords result.a hi.smallA lo.smallA lo.width
      b := result.b.map (concatWords · hi.smallB lo.smallB lo.width) }
  else g4CopyBits (g4CopyBits result 0 lo 0 lo.width) lo.width hi 0 hi.width

/-- `llg_gmp_sv4_concat`. -/
def llgGmpSv4Concat (hi lo : G4) : Option G4 := do
  let width ← g4SelectionWidth (hi.width + lo.width)
  if width > 64 then return llgGmpSv4ConcatWide hi lo width
  return g4Small (lo.smallA ||| if hi.width ≠ 0 then hi.smallA <<< lo.width else 0)
    (lo.smallB ||| if hi.width ≠ 0 then hi.smallB <<< lo.width else 0) width false

/-- The loop of `llg_gmp_sv4_repeat_wide` on one plane: the part that is filled is copied behind itself. -/
def repeatPlane (width : ℕ) : ℕ → Words → ℕ → Words
  | 0, plane, _ => plane
  | fuel + 1, plane, copied =>
    if copied < width then
      let take := if width - copied > copied then copied else width - copied
      repeatPlane width fuel (copyPlane none take plane copied 0 take) (copied + take)
    else plane

/-- `llg_gmp_sv4_repeat_wide`. -/
def llgGmpSv4RepeatWide (pattern : G4) (width : ℕ) : G4 :=
  let result := llgGmpSv4New width false (width ≠ 0 ∧ llgGmpSv4IsUnknown pattern)
  let result := if width ≠ 0 then g4CopyBits result 0 pattern 0 pattern.width else result
  { result with
    a := repeatPlane width width result.a pattern.width
    b := result.b.map (repeatPlane width width · pattern.width) }

/-- The loop of `llg_gmp_sv4_repeat` on one word. -/
def repeatWord (width : ℕ) : ℕ → BitVec 64 → ℕ → BitVec 64
  | 0, word, _ => word
  | fuel + 1, word, copied =>
    if copied < width then
      let take := if width - copied < copied then width - copied else copied
      repeatWord width fuel (word ||| (word &&& g4Mask take) <<< copied) (copied + take)
    else word

/-- `llg_gmp_sv4_repeat`. -/
def llgGmpSv4Repeat (pattern : G4) (count : ℕ) : Option G4 := do
  if pattern.width ≠ 0 ∧ count > (2 ^ 64 - 1) / pattern.width then none
  else
    let width ← g4SelectionWidth (pattern.width * count)
    if width > 64 then return llgGmpSv4RepeatWide pattern width
    if width = 0 then return g4Small 0 0 0 false
    return g4Small (repeatWord width width pattern.smallA pattern.width)
      (repeatWord width width pattern.smallB pattern.width) width false

/-- `llg_gmp_sv4_repeat_count_wide`. -/
def llgGmpSv4RepeatCountWide (value : G4) : G4 :=
  if llgGmpSv4IsUnknown value ∨
      (value.isSigned ∧ value.width ≠ 0 ∧ llgGmpSv4State value (value.width - 1) = 1) then
    llgGmpSv4Zero value.width false
  else { value with isSigned := false }

/-- `llg_gmp_sv4_repeat_count`. -/
def llgGmpSv4RepeatCount (value : G4) : G4 :=
  if value.width > 64 then llgGmpSv4RepeatCountWide value
  else if value.smallB ≠ 0 ∨
      (value.isSigned ∧ value.width ≠ 0 ∧ (value.smallA >>> (value.width - 1)) &&& 1#64 ≠ 0) then
    g4Small 0 0 value.width false
  else { value with isSigned := false }

/-- Where the next bits of a stream come from. -/
structure Cursor where
  sourceStart : ℕ
  sourceBit : ℕ
  remaining : ℕ

/-- The cursor after `take` bits, when the stream has reached `position`. -/
def Cursor.advance (cursor : Cursor) (width slice take position : ℕ) : Cursor :=
  let remaining := cursor.remaining - take
  if remaining = 0 ∧ position < width then
    let remaining := if width - position > slice then slice else width - position
    ⟨cursor.sourceStart - remaining, cursor.sourceStart - remaining, remaining⟩
  else ⟨cursor.sourceStart, cursor.sourceBit + take, remaining⟩

/-- One word of a stream is gathered from slices. -/
def gatherWord (plane : Words) (width slice bit count : ℕ) :
    ℕ → ℕ → BitVec 64 → Cursor → BitVec 64 × Cursor
  | 0, _, word, cursor => (word, cursor)
  | fuel + 1, gathered, word, cursor =>
    if gathered < count then
      let take := if count - gathered > cursor.remaining then cursor.remaining else count - gathered
      let word := word ||| g4RangeWord plane cursor.sourceBit take <<< gathered
      gatherWord plane width slice bit count fuel (gathered + take) word
        (cursor.advance width slice take (bit + (gathered + take)))
    else (word, cursor)

/-- The loop of `g4_stream` on one plane. -/
def streamPlane (plane : Words) (width slice : ℕ) : ℕ → ℕ → Cursor → Words → Words
  | 0, _, _, out => out
  | fuel + 1, bit, cursor, out =>
    if bit < width then
      let count := if width - bit < 64 then width - bit else 64
      let (word, cursor) := gatherWord plane width slice bit count count 0 0 cursor
      streamPlane plane width slice fuel (bit + count) cursor (out.set (bit / 64) word)
    else out

/-- The cursor at the start of a stream. -/
def firstCursor (width slice : ℕ) : Cursor :=
  let remaining := if width % slice = 0 then slice else width % slice
  ⟨width - remaining, width - remaining, remaining⟩

/-- `g4_stream`. -/
def g4Stream (value : G4) (slice : ℕ) (reverse : Bool) : Option G4 :=
  if slice = 0 then none
  else if reverse = false ∨ value.width = 0 ∨ slice ≥ value.width then some { value with isSigned := false }
  else
    let result := llgGmpSv4New value.width false (llgGmpSv4IsUnknown value)
    if slice = 1 then some (g4CopyReverse result 0 value 0 value.width)
    else
      let cursor := firstCursor value.width slice
      some { result with
        a := streamPlane value.a value.width slice value.width 0 cursor result.a
        b := result.b.map (streamPlane value.wordsB value.width slice value.width 0 cursor) }

/-- The loop of `g4_selection_small_stream` on one word. -/
def streamWord (word : BitVec 64) (width slice : ℕ) : ℕ → ℕ → BitVec 64 → BitVec 64
  | 0, _, out => out
  | fuel + 1, bit, out =>
    if bit < width then
      let count := if width - bit < slice then width - bit else slice
      let other := width - bit - count
      streamWord word width slice fuel (bit + count) (out ||| ((word >>> bit) &&& g4Mask count) <<< other)
    else out

/-- `g4_selection_small_stream`. -/
def g4SelectionSmallStream (v : G4) (slice : ℕ) (reverse : Bool) : Option G4 :=
  if slice = 0 then none
  else if reverse = false ∨ slice ≥ v.width then some { v with isSigned := false }
  else
    let r := g4Small 0 0 v.width false
    some (r.putSmall (streamWord v.smallA v.width slice v.width 0 r.smallA)
      (streamWord v.smallB v.width slice v.width 0 r.smallB))

/-- `llg_gmp_sv4_stream`. -/
def llgGmpSv4Stream (v : G4) (slice : ℕ) (reverse : Bool) : Option G4 :=
  if v.width ≤ 64 then g4SelectionSmallStream v slice reverse else g4Stream v slice reverse

/-- Whether an interval is known and equal in two values. -/
def equalRange (a b : G4) : ℕ → ℕ → ℕ → Bool
  | 0, _, _ => true
  | fuel + 1, bit, last =>
    if bit < last then
      let take := if last - bit > 64 then 64 else last - bit
      if g4RangeWord a.wordsB bit take ≠ 0 ∨ g4RangeWord b.wordsB bit take ≠ 0 ∨
          g4RangeWord a.a bit take ≠ g4RangeWord b.a bit take then
        false
      else equalRange a b fuel (bit + take) last
    else true

/-- One word of the merge of arrays of bits. -/
def mergeWord (a b elementDefault result : G4) (i : ℕ) : G4 :=
  let defaultA := if elementDefault.smallA ≠ 0 then BitVec.allOnes 64 else 0
  let defaultB := if elementDefault.smallB ≠ 0 then BitVec.allOnes 64 else 0
  let mask := wordMask a.width (g4Words a.width) i
  let aa := a.a.getD i 0
  let different := ((aa ^^^ b.a.getD i 0) ||| a.wordsB.getD i 0 ||| b.wordsB.getD i 0) &&& mask
  let unknown := defaultB &&& different
  let result :=
    if unknown ≠ 0 ∧ result.width > 64 ∧ result.b.isNone then llgGmpSv4Promote result else result
  { result with
    a := result.a.set i ((aa &&& ~~~different) ||| (defaultA &&& different))
    b := result.b.map (·.set i unknown) }

/-- One element of the merge of arrays. -/
def mergeElement (a b elementDefault result : G4) (offset : ℕ) : G4 :=
  let stride := elementDefault.width
  if equalRange a b stride offset (offset + stride) then g4CopyBits result offset a offset stride
  else g4CopyBits result offset elementDefault 0 stride

/-- `llg_gmp_sv4_array_conditional_merge_wide`. -/
def llgGmpSv4ArrayConditionalMergeWide (a b elementDefault : G4) : Option G4 :=
  let stride := elementDefault.width
  if a.width = 0 ∨ a.width ≥ llgGmpSupportedWidthLimit ∨ a.width ≠ b.width ∨ stride = 0 ∨ stride > a.width ∨
      a.width % stride ≠ 0 then
    none
  else
    let result := llgGmpSv4Zero a.width false
    if stride = 1 then
      some (llgGmpSv4Finish ((range (g4Words a.width)).foldl (mergeWord a b elementDefault) result))
    else
      some (llgGmpSv4Finish ((range (a.width / stride)).foldl
        (fun result i => mergeElement a b elementDefault result (i * stride)) result))

/-- One element of the merge of narrow arrays. -/
def mergeSmall (a b elementDefault r : G4) (offset : ℕ) : G4 :=
  let mask := g4Mask elementDefault.width
  let aa := (a.smallA >>> offset) &&& mask
  let ba := (b.smallA >>> offset) &&& mask
  let equal : Bool := aa = ba ∧ ((a.smallB ||| b.smallB) >>> offset) &&& mask = 0
  r.putSmall (r.smallA ||| (if equal then aa else elementDefault.smallA) <<< offset)
    (r.smallB ||| (if equal then 0 else elementDefault.smallB) <<< offset)

/-- `llg_gmp_sv4_array_conditional_merge`. -/
def llgGmpSv4ArrayConditionalMerge (a b elementDefault : G4) : Option G4 :=
  if a.width > 64 then llgGmpSv4ArrayConditionalMergeWide a b elementDefault
  else
    let stride := elementDefault.width
    if a.width = 0 ∨ a.width ≠ b.width ∨ stride = 0 ∨ stride > a.width ∨ a.width % stride ≠ 0 then none
    else if stride = 1 then
      let different := (a.smallA ^^^ b.smallA) ||| a.smallB ||| b.smallB
      some (g4Small ((a.smallA &&& ~~~different) ||| if elementDefault.smallA ≠ 0 then different else 0)
        (if elementDefault.smallB ≠ 0 then different else 0) a.width false)
    else
      some ((range (a.width / stride)).foldl
        (fun r i => mergeSmall a b elementDefault r (i * stride)) (g4Small 0 0 a.width false))

/-- The end of the leaf of a record that starts before `last`. -/
def leafEnd (starts : Words) (period : ℕ) : ℕ → ℕ → ℕ
  | 0, last => last
  | fuel + 1, last =>
    if last < period ∧ (starts.getD (last / 64) 0 >>> (last % 64)) &&& 1#64 = 0 then
      leafEnd starts period fuel (last + 1)
    else last

/-- The leaves of one period of a record are merged. -/
def mergePeriod (a b periodDefault leafStarts : G4) (base : ℕ) : ℕ → G4 → ℕ → G4
  | 0, result, _ => result
  | fuel + 1, result, start =>
    if start < periodDefault.width then
      let last := leafEnd leafStarts.a periodDefault.width periodDefault.width (start + 1)
      let result :=
        if equalRange a b (last - start) (base + start) (base + last) then
          g4CopyBits result (base + start) a (base + start) (last - start)
        else g4CopyBits result (base + start) periodDefault start (last - start)
      mergePeriod a b periodDefault leafStarts base fuel result last
    else result

/-- `llg_gmp_sv4_record_conditional_merge`. -/
def llgGmpSv4RecordConditionalMerge (a b periodDefault leafStarts : G4) : Option G4 :=
  let period := periodDefault.width
  if a.width = 0 ∨ a.width ≥ llgGmpSupportedWidthLimit ∨ a.width ≠ b.width ∨ period = 0 ∨ period > a.width ∨
      a.width % period ≠ 0 ∨ leafStarts.width ≠ period ∨ leafStarts.a.getD 0 0 &&& 1#64 = 0 then
    none
  else
    some (llgGmpSv4Finish ((range (a.width / period)).foldl
      (fun result i => mergePeriod a b periodDefault leafStarts (i * period) period result 0)
      (llgGmpSv4Zero a.width false)))

/-! ## Planes with all the bits of the operands -/

/-- A wide value is canonical if its planes have only bits below the width, and the plane `b` exists exactly
if it has one. -/
lemma canonical_of_planes (hw : 64 < w) (s : Bool) {a : Words} {b : Option Words} {p q : ℕ → Bool}
    (hlenA : a.length = g4Words w) (hlenB : ∀ ws ∈ b, ws.length = g4Words w)
    (hA : ∀ i, (wordsNat a).testBit i = (decide (i < w) && p i))
    (hB : ∀ ws ∈ b, ∀ i, (wordsNat ws).testBit i = (decide (i < w) && q i))
    (hsome : b.isSome = true ↔ ∃ i < w, q i = true) : G4.Canonical ⟨w, s, a, b⟩ := by
  have hwords : g4Words w = crWords w := (crWords_of_pos (by omega)).symm
  have hholds : ∀ {ws : Words} {r : ℕ → Bool}, ws.length = g4Words w →
      (∀ i, (wordsNat ws).testBit i = (decide (i < w) && r i)) → Holds w ws (wordsNat ws) := by
    intro ws r hlen hbits
    refine ⟨hlen.trans hwords, rfl, lt_pow_two_of_testBit _ fun i hi => ?_⟩
    rw [hbits, decide_eq_false (by omega), Bool.false_and]
  cases b with
  | none => exact (canonical_none hw s (hholds hlenA hA)).1
  | some b =>
    refine (canonical_some s (hholds hlenA hA) (hholds (hlenB b rfl) (hB b rfl)) ?_).1
    obtain ⟨i, hi, hq⟩ := hsome.1 rfl
    have hbit : (wordsNat b).testBit i = true := by
      rw [hB b rfl, decide_eq_true hi, hq]
      rfl
    intro hzero
    rw [hzero, zero_testBit] at hbit
    cases hbit

/-- A value is unknown exactly if a bit of its plane `b` is set. -/
lemma G4.Canonical.isUnknown_iff_testBit (h : v.Canonical) :
    llgGmpSv4IsUnknown v = true ↔ ∃ i < v.width, v.bNat.testBit i = true := by
  rw [h.isUnknown_iff]
  constructor
  · intro hne
    obtain ⟨i, hi⟩ := exists_testBit_of_ne_zero hne
    refine ⟨i, ?_, hi⟩
    by_contra hge
    rw [testBit_beyond h.bNat_lt (by omega)] at hi
    cases hi
  · rintro ⟨i, -, hi⟩ hzero
    rw [hzero, zero_testBit] at hi
    cases hi

/-- The bits of a known plane that are scanned are zero. -/
lemma scanRange_eq_false {plane : Words} (h : wordsNat plane = 0) (fuel bit remaining : ℕ) :
    scanRange plane fuel bit remaining = false := by
  induction fuel generalizing bit remaining with
  | zero => rfl
  | succ fuel ih =>
    rw [scanRange]
    have hword : ∀ take ≤ 64, g4RangeWord plane bit take = 0 := by
      intro take htake
      refine BitVec.eq_of_getLsbD_eq fun k _ => ?_
      rw [getLsbD_g4RangeWord _ _ htake, h, zero_testBit, Bool.and_false]
      simp
    have htake : (if remaining < 64 then remaining else 64) ≤ 64 := by
      split_ifs <;> omega
    simp only [hword _ htake, ne_eq, not_true_eq_false, if_false, ih, ite_self]

/-- A copy of known bits, or to a value with a plane `b`, does not promote. -/
lemma promoteFor_eq {dst : G4} (h : dst.b.isSome = true ∨ src.bNat = 0) (srcBit count : ℕ) :
    promoteFor dst src srcBit count = dst := by
  rw [promoteFor, if_neg]
  rintro ⟨-, hnone, -, hscan⟩
  rcases h with hsome | hzero
  · rw [Option.isNone_iff_eq_none] at hnone
    rw [hnone] at hsome
    cases hsome
  · rw [bNat_eq_wordsNat] at hzero
    rw [scanRange_eq_false hzero] at hscan
    cases hscan

/-- A copy that does not promote. -/
lemma g4CopyBits_eq {d : G4} (h : d.b.isSome = true ∨ src.bNat = 0) (dstBit srcBit count : ℕ) :
    g4CopyBits d dstBit src srcBit count =
      { d with
        a := copyPlane (some src.a) count d.a dstBit srcBit count
        b := d.b.map fun b => copyPlane (some src.wordsB) count b dstBit srcBit count } := by
  rw [g4CopyBits, promoteFor_eq h]

/-- The planes of a new wide value. -/
lemma llgGmpSv4New_wide (hw : 64 < w) (s withB : Bool) :
    llgGmpSv4New w s withB = ⟨w, s, replicate (g4Words w) 0,
      if withB then some (replicate (g4Words w) 0) else none⟩ := by
  rw [llgGmpSv4New, if_pos hw]

lemma testBit_replicate_zero (n i : ℕ) : (wordsNat (replicate n 0)).testBit i = false := by
  rw [wordsNat_replicate_zero, zero_testBit]

/-- The value that is copied is known if the result has no plane `b`. -/
lemma isSome_or_known (h : v.Canonical) {plane : Prop} [Decidable plane] (ws : Words)
    (hv : llgGmpSv4IsUnknown v = true → plane) :
    (if plane then some ws else none).isSome = true ∨ v.bNat = 0 := by
  rw [or_iff_not_imp_right]
  intro hne
  rw [if_pos (hv (h.isUnknown_iff.2 hne))]
  rfl

/-! ## Concatenation -/

/-- The bits of a concatenation. -/
def concatBit (hi lo : ℕ) (loWidth i : ℕ) : Bool := if i < loWidth then lo.testBit i else hi.testBit (i - loWidth)

section Concat

variable {hi lo : G4} {w : ℕ}

/-- A concatenation is unknown if one of its parts is. -/
lemma exists_concatBit (hhi : hi.Canonical) (hlo : lo.Canonical) (hw : w = hi.width + lo.width) :
    (llgGmpSv4IsUnknown hi || llgGmpSv4IsUnknown lo) = true ↔
      ∃ i < w, concatBit hi.bNat lo.bNat lo.width i = true := by
  rw [Bool.or_eq_true, hhi.isUnknown_iff_testBit, hlo.isUnknown_iff_testBit]
  constructor
  · rintro (⟨i, hi, hbit⟩ | ⟨i, hi, hbit⟩)
    · refine ⟨lo.width + i, by omega, ?_⟩
      rw [concatBit, if_neg (by omega), Nat.add_sub_cancel_left]
      exact hbit
    · refine ⟨i, by omega, ?_⟩
      rw [concatBit, if_pos hi]
      exact hbit
  · rintro ⟨i, hi, hbit⟩
    rw [concatBit] at hbit
    split_ifs at hbit with hlow
    · exact .inr ⟨i, hlow, hbit⟩
    · exact .inl ⟨i - lo.width, by omega, hbit⟩

lemma concatBit_of_ge {x y : ℕ} (hx : x < 2 ^ hi.width) (hw : w = hi.width + lo.width) (i : ℕ) :
    concatBit x y lo.width i = (decide (i < w) && concatBit x y lo.width i) := by
  by_cases hlt : i < w
  · rw [decide_eq_true hlt, Bool.true_and]
  · rw [decide_eq_false hlt, Bool.false_and, concatBit, if_neg (by omega)]
    exact testBit_beyond hx (by omega)

/-- Two words of a concatenation. -/
lemma testBit_concatWords {out : Words} (hlen : out.length = 2) {x y : BitVec 64} (hx : x.toNat < 2 ^ hi.width)
    (hy : y.toNat < 2 ^ lo.width) (hhi : hi.width ≤ 64) (hlo : lo.width ≤ 64) (i : ℕ) :
    (wordsNat (concatWords out x y lo.width)).testBit i = concatBit x.toNat y.toNat lo.width i := by
  obtain ⟨u, v, rfl⟩ := length_eq_two.1 hlen
  have hbelowX := below_of_toNat_lt hx
  have hbelowY := below_of_toNat_lt hy
  rw [testBit_wordsNat, concatBit, BitVec.testBit_toNat, BitVec.testBit_toNat]
  simp only [concatWords, set_cons_zero, set_cons_succ]
  rcases lt_or_ge i 64 with hfirst | hfirst
  · -- The first word has the low part and the start of the high part.
    rw [div_eq_of_lt hfirst, mod_eq_of_lt hfirst, getD_cons_zero, BitVec.getLsbD_or]
    by_cases hlow : i < lo.width
    · rw [if_pos hlow]
      split_ifs <;> simp [hlow]
    · rw [if_neg hlow, hbelowY i (by omega), Bool.false_or, if_pos (by omega), BitVec.getLsbD_shiftLeft]
      simp [hlow, hfirst]
  · have hlow : ¬ i < lo.width := by omega
    rw [if_neg hlow]
    rcases lt_or_ge i 128 with hsecond | hsecond
    · have hdiv : i / 64 = 1 := by omega
      have hmod : i % 64 = i - 64 := by omega
      rw [hdiv, hmod, getD_cons_succ, getD_cons_zero]
      split_ifs with hfull
      · rw [hfull]
      · rw [BitVec.getLsbD_ushiftRight]
        congr 1
        omega
    · rw [hbelowX (i - lo.width) (by omega), getD_eq_default _ _ (by simp; omega)]
      simp

/-- Copies of the low and of the high part make a concatenation. -/
lemma testBit_copyPlane_concat {x y : Words} (hx : wordsNat x < 2 ^ hi.width) (hw : w = hi.width + lo.width)
    (i : ℕ) :
    (wordsNat (copyPlane (some x) hi.width
      (copyPlane (some y) lo.width (replicate (g4Words w) 0) 0 0 lo.width) lo.width 0 hi.width)).testBit i =
      (decide (i < w) && concatBit (wordsNat x) (wordsNat y) lo.width i) := by
  have hroom : w ≤ 64 * g4Words w := by
    rw [g4Words]
    omega
  have hlen : (replicate (g4Words w) (0 : BitVec 64)).length = g4Words w := length_replicate
  rw [testBit_copyPlane _ le_rfl (by rw [length_copyPlane]; omega) (by simp),
    testBit_copyPlane _ le_rfl (by omega) (by simp), ← concatBit_of_ge hx hw, concatBit,
    testBit_replicate_zero]
  simp only [Option.getD_some, zero_add, Nat.sub_zero]
  by_cases hlow : i < lo.width
  · rw [if_neg (by omega), if_pos (by omega), if_pos hlow]
  · rw [if_neg hlow]
    by_cases hhigh : i < lo.width + hi.width
    · rw [if_pos (by omega)]
    · rw [if_neg (by omega), if_neg (by omega)]
      exact (testBit_beyond hx (by omega)).symm

end Concat

/-! ## Replication -/

/-- The part that is copied behind itself starts at a multiple of the period. -/
lemma repeated_step {period copied take : ℕ} {pattern old : ℕ → Bool} (hdvd : period ∣ copied)
    (htake : take ≤ copied) (hold : ∀ i, old i = (decide (i < copied) && pattern (i % period))) (j : ℕ) :
    (if copied ≤ j ∧ j < copied + take then old (j - copied) else old j) =
      (decide (j < copied + take) && pattern (j % period)) := by
  by_cases hnew : copied ≤ j ∧ j < copied + take
  · obtain ⟨k, rfl⟩ := hdvd
    have hmod : (j - period * k) % period = j % period := by
      conv_rhs => rw [← Nat.sub_add_cancel hnew.1, add_mul_mod_self_left]
    rw [if_pos hnew, hold, hmod, decide_eq_true (by omega), decide_eq_true hnew.2]
  · rw [if_neg hnew, hold]
    congr 1
    simp only [decide_eq_decide]
    omega

/-- The filled part of a plane repeats the pattern, and so does the whole plane in the end. -/
lemma testBit_repeatPlane {period width : ℕ} {pattern : ℕ → Bool} (hperiod : period ∣ width)
    {plane : Words} {copied : ℕ} (hfuel : width - copied ≤ fuel) (hpos : 0 < copied) (hcopied : copied ≤ width)
    (hdvd : period ∣ copied) (hlen : width ≤ 64 * plane.length)
    (hplane : ∀ i, (wordsNat plane).testBit i = (decide (i < copied) && pattern (i % period))) (i : ℕ) :
    (wordsNat (repeatPlane width fuel plane copied)).testBit i =
      (decide (i < width) && pattern (i % period)) := by
  induction fuel generalizing plane copied with
  | zero =>
    have heq : copied = width := by omega
    rw [repeatPlane, hplane, heq]
  | succ fuel ih =>
    rw [repeatPlane]
    by_cases hlt : copied < width
    · rw [if_pos hlt]
      simp only
      generalize htake : (if width - copied > copied then copied else width - copied) = take
      have hcases : take = copied ∧ copied + take ≤ width ∨ copied + take = width := by
        rw [← htake]
        split_ifs <;> omega
      have hle : 0 < take ∧ take ≤ copied := by
        rw [← htake]
        split_ifs <;> omega
      refine ih (by omega) (by omega) (by omega) ?_ (by rwa [length_copyPlane]) fun j => ?_
      · rcases hcases with ⟨heq, -⟩ | heq
        · rw [heq]
          exact dvd_add hdvd hdvd
        · rw [heq]
          exact hperiod
      · rw [testBit_copyPlane none le_rfl (by omega) (fun _ => by omega), Option.getD_none, zero_add]
        exact repeated_step hdvd hle.2 hplane j
    · have heq : copied = width := by omega
      rw [if_neg hlt, hplane, heq]

lemma length_repeatPlane (width fuel : ℕ) (plane : Words) (copied : ℕ) :
    (repeatPlane width fuel plane copied).length = plane.length := by
  induction fuel generalizing plane copied with
  | zero => rfl
  | succ fuel ih =>
    rw [repeatPlane]
    by_cases hlt : copied < width
    · rw [if_pos hlt]
      exact (ih ..).trans (length_copyPlane ..)
    · rw [if_neg hlt]

/-- The bits of a plane that repeats a pattern. -/
lemma testBit_repeat_copy {width : ℕ} {pattern : G4} (hpos : 0 < pattern.width) (hdvd : pattern.width ∣ width)
    (hle : pattern.width ≤ width) {x : Words} (i : ℕ) :
    (wordsNat (repeatPlane width width (copyPlane (some x) pattern.width (replicate (g4Words width) 0) 0 0
      pattern.width) pattern.width)).testBit i =
      (decide (i < width) && (wordsNat x).testBit (i % pattern.width)) := by
  have hroom : width ≤ 64 * (replicate (g4Words width) (0 : BitVec 64)).length := by
    rw [length_replicate, g4Words]
    omega
  refine @testBit_repeatPlane _ _ _ (wordsNat x).testBit hdvd _ _ (by omega) hpos hle dvd_rfl
    (by rwa [length_copyPlane]) (fun j => ?_) i
  rw [testBit_copyPlane _ le_rfl (by omega) (by simp), testBit_replicate_zero]
  by_cases hj : j < pattern.width
  · rw [if_pos (by omega), mod_eq_of_lt hj, decide_eq_true hj]
    simp
  · rw [if_neg (by omega), decide_eq_false hj, Bool.false_and]

/-- The sign of a value is no part of its words. -/
lemma G4.Canonical.withSign (h : v.Canonical) (s : Bool) : G4.Canonical { v with isSigned := s } :=
  ⟨h.holds_a, h.holds_b, h.isSome_b⟩

lemma llgGmpSv4RepeatCount_canonical (h : v.Canonical) : (llgGmpSv4RepeatCount v).Canonical := by
  rw [llgGmpSv4RepeatCount, llgGmpSv4RepeatCountWide]
  split_ifs
  · exact llgGmpSv4Zero_canonical ..
  · exact h.withSign false
  · exact g4Small_ok (by omega) ..
  · exact h.withSign false

/-! ## Streams

The result of a stream consists of the slices of the operand in the reverse order; the first of them may be
shorter.  A slice of the result from `start` on is the one of the operand that ends `start` bits below the top. -/

/-- The length of the first slice. -/
def firstSlice (w s : ℕ) : ℕ := if w % s = 0 then s else w % s

/-- The position that a bit of a stream comes from. -/
def streamSource (w s j : ℕ) : ℕ :=
  if j < firstSlice w s then w - firstSlice w s + j
  else w - firstSlice w s - ((j - firstSlice w s) / s + 1) * s + (j - firstSlice w s) % s

/-- A slice of a stream. -/
structure Slice (w s start len : ℕ) : Prop where
  le : start + len ≤ w
  kind : start = 0 ∧ len = firstSlice w s ∨
    firstSlice w s ≤ start ∧ s ∣ start - firstSlice w s ∧ len = s

section Stream

variable {w s : ℕ}

lemma firstSlice_spec (hs : 0 < s) (hw : s < w) :
    0 < firstSlice w s ∧ firstSlice w s ≤ w ∧ s ∣ w - firstSlice w s := by
  rw [firstSlice]
  split_ifs with hzero
  · exact ⟨hs, hw.le, Nat.dvd_sub (dvd_of_mod_eq_zero hzero) dvd_rfl⟩
  · exact ⟨pos_of_ne_zero hzero, mod_le .., dvd_sub_mod w⟩

lemma Slice.source (hs : 0 < s) {start len : ℕ} (h : Slice w s start len) {j : ℕ} (hj : start ≤ j)
    (hlt : j < start + len) : streamSource w s j = w - (start + len) + (j - start) := by
  have hle := h.le
  rw [streamSource]
  rcases h.kind with ⟨rfl, rfl⟩ | ⟨hstart, ⟨k, hk⟩, rfl⟩
  · rw [if_pos (by omega)]
    omega
  · have hj' : j - firstSlice w len = len * k + (j - start) := by omega
    have hdiv : (j - firstSlice w len) / len = k := by
      rw [hj', mul_add_div hs, div_eq_of_lt (by omega), add_zero]
    have hmod : (j - firstSlice w len) % len = j - start := by
      rw [hj', mul_add_mod, mod_eq_of_lt (by omega)]
    have hmul : (k + 1) * len = len * k + len := by ring
    rw [if_neg (by omega), hdiv, hmod, hmul]
    omega

lemma Slice.next (hs : 0 < s) (hw : s < w) {start len : ℕ} (h : Slice w s start len) (hlt : start + len < w) :
    Slice w s (start + len) s := by
  obtain ⟨hpos, hle, hdvd⟩ := firstSlice_spec hs hw
  have hkind : firstSlice w s ≤ start + len ∧ s ∣ start + len - firstSlice w s := by
    rcases h.kind with ⟨rfl, rfl⟩ | ⟨hstart, hk, rfl⟩
    · exact ⟨by omega, by simp⟩
    · refine ⟨by omega, ?_⟩
      rw [Nat.sub_add_comm hstart]
      exact dvd_add hk dvd_rfl
  refine ⟨?_, .inr ⟨hkind.1, hkind.2, rfl⟩⟩
  have hrest := le_of_dvd (by omega) (Nat.dvd_sub hdvd hkind.2)
  omega

/-- The cursor reads the slice that has the position. -/
def Cursor.Reads (c : Cursor) (w s position : ℕ) : Prop :=
  0 < c.remaining ∧ ∃ start len, Slice w s start len ∧ start ≤ position ∧
    position + c.remaining = start + len ∧ c.sourceStart = w - (start + len) ∧
    c.sourceBit = c.sourceStart + (position - start)

lemma firstCursor_reads (hs : 0 < s) (hw : s < w) : (firstCursor w s).Reads w s 0 := by
  obtain ⟨hpos, hle, -⟩ := firstSlice_spec hs hw
  refine ⟨hpos, 0, firstSlice w s, ⟨by omega, .inl ⟨rfl, rfl⟩⟩, le_rfl, rfl, ?_, rfl⟩
  rw [zero_add]
  rfl

lemma Cursor.Reads.source (hs : 0 < s) {c : Cursor} {position k : ℕ} (h : c.Reads w s position)
    (hk : k < c.remaining) : streamSource w s (position + k) = c.sourceBit + k := by
  obtain ⟨-, start, len, hslice, hstart, hend, hsource, hbit⟩ := h
  rw [hslice.source hs (by omega) (by omega), hbit, hsource]
  omega

lemma Cursor.Reads.advance (hs : 0 < s) (hw : s < w) {c : Cursor} {position take : ℕ}
    (h : c.Reads w s position) (htake : take ≤ c.remaining) (hlt : position + take < w) :
    (c.advance w s take (position + take)).Reads w s (position + take) := by
  obtain ⟨-, start, len, hslice, hstart, hend, hsource, hbit⟩ := h
  rw [Cursor.advance]
  by_cases hdone : c.remaining - take = 0
  · have hposition : position + take = start + len := by omega
    have hnext := hslice.next hs hw (hposition ▸ hlt)
    have hroom := hnext.le
    have hremaining : (if w - (position + take) > s then s else w - (position + take)) = s := by
      split_ifs <;> omega
    simp only [hdone, true_and, if_pos hlt, hremaining]
    refine ⟨hs, start + len, s, hnext, by omega, ?_, ?_, ?_⟩ <;> simp only <;> omega
  · rw [if_neg fun hand => hdone hand.1]
    refine ⟨by simp only; omega, start, len, hslice, by omega, ?_, hsource, ?_⟩ <;> simp only <;> omega

/-- The bits of one word of a stream, and the cursor behind it. -/
lemma gatherWord_spec (hs : 0 < s) (hw : s < w) (plane : Words) {count : ℕ} (hbound : bit + count ≤ w)
    (hcount : count ≤ 64) {gathered : ℕ} {word : BitVec 64} {c : Cursor} (hfuel : count - gathered ≤ fuel)
    (hgathered : gathered ≤ count) (hc : bit + gathered < w → c.Reads w s (bit + gathered))
    (hword : ∀ k, word.getLsbD k =
      (decide (k < gathered) && (wordsNat plane).testBit (streamSource w s (bit + k)))) :
    (∀ k, (gatherWord plane w s bit count fuel gathered word c).1.getLsbD k =
      (decide (k < count) && (wordsNat plane).testBit (streamSource w s (bit + k)))) ∧
    (bit + count < w → (gatherWord plane w s bit count fuel gathered word c).2.Reads w s (bit + count)) := by
  induction fuel generalizing gathered word c with
  | zero =>
    obtain rfl : gathered = count := by omega
    exact ⟨hword, hc⟩
  | succ fuel ih =>
    rw [gatherWord]
    by_cases hlt : gathered < count
    · rw [if_pos hlt]
      simp only
      generalize htake : (if count - gathered > c.remaining then c.remaining else count - gathered) = take
      have hreads := hc (by omega)
      have hpos := hreads.1
      have hle : 0 < take ∧ take ≤ c.remaining ∧ gathered + take ≤ count := by
        rw [← htake]
        split_ifs <;> omega
      refine ih (by omega) (by omega) (fun hnext => ?_) fun k => ?_
      · rw [← add_assoc] at hnext ⊢
        exact hreads.advance hs hw hle.2.1 hnext
      · -- A new bit is behind the gathered ones, an old bit is not touched by the shifted range.
        rw [BitVec.getLsbD_or, hword, BitVec.getLsbD_shiftLeft, getLsbD_g4RangeWord _ _ (by omega)]
        by_cases hold : k < gathered
        · rw [decide_eq_true hold, decide_eq_true (show k < gathered + take by omega)]
          simp
        · rw [decide_eq_false hold]
          by_cases hnew : k < gathered + take
          · have hindex : bit + k = bit + gathered + (k - gathered) := by omega
            have hk : k < 64 := by omega
            rw [hindex, hreads.source hs (by omega), decide_eq_true hnew, decide_eq_true hk,
              decide_eq_true (show k - gathered < take by omega)]
            simp
          · rw [decide_eq_false hnew, decide_eq_false (show ¬ k - gathered < take by omega)]
            simp
    · obtain rfl : gathered = count := by omega
      rw [if_neg hlt]
      exact ⟨hword, hc⟩

lemma length_streamPlane (plane : Words) (w s fuel bit : ℕ) (c : Cursor) (out : Words) :
    (streamPlane plane w s fuel bit c out).length = out.length := by
  induction fuel generalizing bit c out with
  | zero => rfl
  | succ fuel ih =>
    rw [streamPlane]
    by_cases hlt : bit < w
    · rw [if_pos hlt]
      exact (ih ..).trans length_set
    · rw [if_neg hlt]

/-- The bits of a streamed plane. -/
lemma testBit_streamPlane (hs : 0 < s) (hw : s < w) (plane : Words) {c : Cursor} {out : Words}
    (hfuel : w - bit ≤ fuel) (hbit : bit < w → bit % 64 = 0) (hc : bit < w → c.Reads w s bit)
    (hlen : w ≤ 64 * out.length) (hout : ∀ j, (wordsNat out).testBit j =
      (decide (j < min bit w) && (wordsNat plane).testBit (streamSource w s j))) (j : ℕ) :
    (wordsNat (streamPlane plane w s fuel bit c out)).testBit j =
      (decide (j < w) && (wordsNat plane).testBit (streamSource w s j)) := by
  induction fuel generalizing bit c out with
  | zero =>
    rw [streamPlane, hout, Nat.min_eq_right (by omega)]
  | succ fuel ih =>
    rw [streamPlane]
    by_cases hlt : bit < w
    · rw [if_pos hlt]
      simp only
      generalize hcount : (if w - bit < 64 then w - bit else 64) = count
      have hbound : 0 < count ∧ count ≤ 64 ∧ bit + count ≤ w ∧ (bit + count < w → count = 64) := by
        rw [← hcount]
        split_ifs <;> omega
      have haligned := hbit hlt
      obtain ⟨hword, hreads⟩ := @gatherWord_spec _ count _ _ hs hw plane count hbound.2.2.1
        hbound.2.1 0 0 c (by omega) (by omega) hc (fun k => by simp)
      refine ih (by omega) (by omega) hreads (by rwa [length_set]) fun i => ?_
      rw [testBit_wordsNat, getD_eq_getElem?_getD, getElem?_set]
      by_cases hlimb : bit / 64 = i / 64
      · rw [if_pos hlimb, if_pos (by omega), Option.getD_some, hword]
        have hindex : bit + i % 64 = i := by omega
        rw [hindex]
        congr 1
        simp only [decide_eq_decide]
        omega
      · rw [if_neg hlimb, ← getD_eq_getElem?_getD, ← testBit_wordsNat, hout]
        congr 1
        simp only [decide_eq_decide]
        omega
    · rw [if_neg hlt, hout, Nat.min_eq_right (by omega)]

/-- Every bit of the operand is somewhere in the stream. -/
lemma exists_streamSource (hs : 0 < s) (hw : s < w) {i : ℕ} (hi : i < w) : ∃ j < w, streamSource w s j = i := by
  obtain ⟨-, hle, m, hm⟩ := firstSlice_spec hs hw
  by_cases htop : w - firstSlice w s ≤ i
  · have hslice : Slice w s 0 (firstSlice w s) := ⟨by omega, .inl ⟨rfl, rfl⟩⟩
    refine ⟨i - (w - firstSlice w s), by omega, ?_⟩
    rw [hslice.source hs (by omega) (by omega)]
    omega
  · -- The slices behind the first are counted from the top of the operand.
    obtain ⟨q, hq⟩ : ∃ q, q = (w - firstSlice w s - 1 - i) / s := ⟨_, rfl⟩
    have hdiv := div_add_mod (w - firstSlice w s - 1 - i) s
    have hmod := mod_lt (w - firstSlice w s - 1 - i) hs
    rw [← hq] at hdiv
    have hqm : q < m := by
      by_contra hge
      have := Nat.mul_le_mul_left s (not_lt.1 hge)
      omega
    have hroom := Nat.mul_le_mul_left s (succ_le_of_lt hqm)
    rw [mul_succ] at hroom
    have hslice : Slice w s (firstSlice w s + s * q) s := by
      refine ⟨by omega, .inr ⟨by omega, ?_, rfl⟩⟩
      rw [Nat.add_sub_cancel_left]
      exact dvd_mul_right ..
    refine ⟨firstSlice w s + s * q + (i + firstSlice w s + s * q + s - w), by omega, ?_⟩
    rw [hslice.source hs (by omega) (by omega)]
    omega

end Stream

/-- A known value, or one whose copy has a plane `b`, is reversed without a promotion. -/
lemma g4CopyReverse_eq {d : G4} (h : d.b.isSome = true ∨ src.bNat = 0) (dstBit srcBit count : ℕ) :
    g4CopyReverse d dstBit src srcBit count =
      { d with
        a := copyReversePlane src.a count d.a dstBit (srcBit + count) count
        b := d.b.map fun b => copyReversePlane src.wordsB count b dstBit (srcBit + count) count } := by
  rw [g4CopyReverse, promoteFor_eq h]

lemma testBit_copyReverse_all (plane : Words) (i : ℕ) :
    (wordsNat (copyReversePlane plane w (replicate (g4Words w) 0) 0 (0 + w) w)).testBit i =
      (decide (i < w) && (wordsNat plane).testBit (w - 1 - i)) := by
  have hroom : w ≤ 64 * (replicate (g4Words w) (0 : BitVec 64)).length := by
    rw [length_replicate, g4Words]
    omega
  rw [testBit_copyReversePlane _ le_rfl (by omega) (by omega), testBit_replicate_zero]
  by_cases hi : i < w
  · rw [if_pos (by omega), decide_eq_true hi, zero_add, Nat.sub_zero, Bool.true_and]
  · rw [if_neg (by omega), decide_eq_false hi, Bool.false_and]

section Stream

variable {v : G4}

/-- A rearrangement of the bits of an unknown value is unknown. -/
lemma G4.Canonical.isUnknown_iff_source (h : v.Canonical) {source : ℕ → ℕ}
    (hsource : ∀ i < v.width, ∃ j < v.width, source j = i) :
    llgGmpSv4IsUnknown v = true ↔ ∃ j < v.width, v.bNat.testBit (source j) = true := by
  rw [h.isUnknown_iff_testBit]
  constructor
  · rintro ⟨i, hi, hbit⟩
    obtain ⟨j, hj, rfl⟩ := hsource i hi
    exact ⟨j, hj, hbit⟩
  · rintro ⟨j, -, hbit⟩
    refine ⟨source j, ?_, hbit⟩
    by_contra hge
    rw [testBit_beyond h.bNat_lt (by omega)] at hbit
    cases hbit

/-- A narrow stream has no bit above the width. -/
lemma below_streamWord {slice : ℕ} (word : BitVec 64) (fuel : ℕ) {out : BitVec 64}
    (hout : Below w out) : Below w (streamWord word w slice fuel bit out) := by
  induction fuel generalizing bit out with
  | zero => exact hout
  | succ fuel ih =>
    rw [streamWord]
    by_cases hlt : bit < w
    · rw [if_pos hlt]
      refine ih (hout.or (((below_g4Mask _).and_right _).shiftLeft ?_))
      split_ifs <;> omega
    · rw [if_neg hlt]
      exact hout

end Stream

/-! ## Merges -/

section Merge

variable {w : ℕ}

/-- A fold keeps a shape if every step does. -/
lemma foldl_shaped {α : Type} {step : G4 → α → G4} {l : List α}
    (hstep : ∀ v, v.Shaped w → ∀ x ∈ l, (step v x).Shaped w) (h : v.Shaped w) :
    (l.foldl step v).Shaped w := by
  induction l generalizing v with
  | nil => exact h
  | cons x l ih =>
    exact ih (fun u hu y hy => hstep u hu y (mem_cons_of_mem x hy)) (hstep v h x mem_cons_self)

lemma mergeWord_shaped (hw : 0 < w) (a b elementDefault : G4) (h : v.Shaped w) (i : ℕ) :
    (mergeWord a b elementDefault v i).Shaped w :=
  (G4.Shaped.ite h.promote h).setWord hw ..

lemma mergePeriod_shaped (hw : 0 < w) (a b periodDefault leafStarts : G4) (base fuel : ℕ)
    (h : v.Shaped w) (start : ℕ) : (mergePeriod a b periodDefault leafStarts base fuel v start).Shaped w := by
  induction fuel generalizing v start with
  | zero => exact h
  | succ fuel ih =>
    rw [mergePeriod]
    exact (ih ((h.copyBits _ _ _ (by omega)).ite (h.copyBits _ _ _ (by omega))) _).ite h

lemma llgGmpSv4RecordConditionalMerge_canonical (a b periodDefault leafStarts : G4) :
    ∀ out ∈ llgGmpSv4RecordConditionalMerge a b periodDefault leafStarts, out.Canonical := by
  intro out hout
  simp only [llgGmpSv4RecordConditionalMerge, Option.mem_def] at hout
  split_ifs at hout with hshape
  cases hout
  rw [not_or] at hshape
  have hw : 0 < a.width := by omega
  exact (foldl_shaped (fun v hv i _ => mergePeriod_shaped hw _ _ _ _ _ _ hv 0)
    (llgGmpSv4Zero_shaped a.width false)).finish

end Merge

end Lapligence.Value
