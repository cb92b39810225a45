import Lapligence.Value.ShiftSpecs

/-!
# Ranges of bits

The copies and fills of `value_gmp/ranges.h`, which selections, partial writes and assemblies are made of.
They move at most a word of bits at a time and leave the value to be finished by their callers, so what they
keep is `G4.Shaped`: the arrays have the length of the width.  `G4.Shaped.finish` is the step from a
shaped value to a canonical one.  The operations that do not finish their result need the bits themselves,
which `testBit_copyPlane` and `testBit_copyReversePlane` give.
-/

namespace Lapligence.Value

open WordLists Constraints

/-! ## The functions -/

/-- `llg_gmp_sv4_zero`. -/
def llgGmpSv4Zero (width : ℕ) (sign : Bool) : G4 :=
  if width ≤ 64 then g4Small 0 0 width sign else llgGmpSv4New width sign false

/-- `llg_gmp_sv4_promote`. -/
def llgGmpSv4Promote (v : G4) : G4 :=
  if v.width ≤ 64 ∨ v.b.isSome then v else { v with b := some (List.replicate (g4Words v.width) 0) }

/-- `g4_range_word`: at most 64 bits of a plane from a position on. -/
def g4RangeWord (plane : Words) (bit count : ℕ) : BitVec 64 :=
  let shift := bit % 64
  let word := plane.getD (bit / 64) 0 >>> shift
  let word := if count > 64 - shift then word ||| plane.getD (bit / 64 + 1) 0 <<< (64 - shift) else word
  word &&& g4Mask count

/-- The scan of an interval of a plane, a word at a time, for a bit that is set. -/
def scanRange (plane : Words) : ℕ → ℕ → ℕ → Bool
  | 0, _, _ => false
  | fuel + 1, bit, remaining =>
    if remaining = 0 then false
    else
      let take := if remaining < 64 then remaining else 64
      if g4RangeWord plane bit take ≠ 0 then true else scanRange plane fuel (bit + take) (remaining - take)

/-- The destination of a copy gets its plane `b` if the interval has an X or a Z. -/
def promoteFor (dst src : G4) (srcBit count : ℕ) : G4 :=
  if dst.width > 64 ∧ dst.b.isNone ∧ src.b.isSome ∧ scanRange src.wordsB count srcBit count then
    llgGmpSv4Promote dst
  else dst

/-- `w[limb] = (w[limb] & ~mask) | value`. -/
def putWord (ws : Words) (limb : ℕ) (mask value : BitVec 64) : Words :=
  ws.modify limb fun word => (word &&& ~~~mask) ||| value

/-- The loop of `g4_copy_bits` on one plane.  Without a source the plane is copied to itself. -/
def copyPlane (src : Option Words) : ℕ → Words → ℕ → ℕ → ℕ → Words
  | 0, dst, _, _, _ => dst
  | fuel + 1, dst, dstBit, srcBit, count =>
    if count = 0 then dst
    else
      let shift := dstBit % 64
      let take := if 64 - shift > count then count else 64 - shift
      let word := g4RangeWord (src.getD dst) srcBit take
      copyPlane src fuel (putWord dst (dstBit / 64) (g4Mask take <<< shift) (word <<< shift)) (dstBit + take)
        (srcBit + take) (count - take)

/-- `g4_copy_bits`. -/
def g4CopyBits (dst : G4) (dstBit : ℕ) (src : G4) (srcBit count : ℕ) : G4 :=
  let dst := promoteFor dst src srcBit count
  { dst with
    a := copyPlane (some src.a) count dst.a dstBit srcBit count
    b := dst.b.map fun b => copyPlane (some src.wordsB) count b dstBit srcBit count }

/-- One round of `g4_reverse_word`. -/
def swapBits (word : BitVec 64) (distance : ℕ) (mask : BitVec 64) : BitVec 64 :=
  ((word >>> distance) &&& mask) ||| ((word &&& mask) <<< distance)

/-- `g4_reverse_word`. -/
def g4ReverseWord (word : BitVec 64) : BitVec 64 :=
  let word := swapBits word 1 0x5555555555555555
  let word := swapBits word 2 0x3333333333333333
  let word := swapBits word 4 0x0f0f0f0f0f0f0f0f
  let word := swapBits word 8 0x00ff00ff00ff00ff
  let word := swapBits word 16 0x0000ffff0000ffff
  (word >>> 32) ||| (word <<< 32)

/-- The loop of `g4_copy_reverse` on one plane; `high` is the end of the bits that are left. -/
def copyReversePlane (src : Words) : ℕ → Words → ℕ → ℕ → ℕ → Words
  | 0, dst, _, _, _ => dst
  | fuel + 1, dst, dstBit, high, count =>
    if count = 0 then dst
    else
      let shift := dstBit % 64
      let take := if 64 - shift > count then count else 64 - shift
      let high := high - take
      let word := g4ReverseWord (g4RangeWord src high take) >>> (64 - take)
      copyReversePlane src fuel (putWord dst (dstBit / 64) (g4Mask take <<< shift) (word <<< shift))
        (dstBit + take) high (count - take)

/-- `g4_copy_reverse`. -/
def g4CopyReverse (dst : G4) (dstBit : ℕ) (src : G4) (srcBit count : ℕ) : G4 :=
  let dst := promoteFor dst src srcBit count
  { dst with
    a := copyReversePlane src.a count dst.a dstBit (srcBit + count) count
    b := dst.b.map fun b => copyReversePlane src.wordsB count b dstBit (srcBit + count) count }

/-- The loop of `g4_fill_bits` on one plane. -/
def fillPlane (value : Bool) : ℕ → Words → ℕ → ℕ → Words
  | 0, dst, _, _ => dst
  | fuel + 1, dst, bit, count =>
    if count = 0 then dst
    else
      let shift := bit % 64
      let take := if 64 - shift > count then count else 64 - shift
      let mask := g4Mask take <<< shift
      fillPlane value fuel (putWord dst (bit / 64) mask (if value then mask else 0)) (bit + take)
        (count - take)

/-- `g4_fill_bits`. -/
def g4FillBits (dst : G4) (bit count state : ℕ) : G4 :=
  let dst := if count ≠ 0 ∧ state ≥ 2 ∧ dst.width > 64 ∧ dst.b.isNone then llgGmpSv4Promote dst else dst
  { dst with
    a := fillPlane (state = 1 ∨ state = 2) count dst.a bit count
    b := dst.b.map fun b => fillPlane (state ≥ 2) count b bit count }

/-- `g4_copy_window`: positions outside the source are X. -/
def g4CopyWindow (dst : G4) (dstBit : ℤ) (src : G4) (srcBit : ℤ) (count : ℕ) : G4 :=
  if count = 0 ∨ dstBit ≥ dst.width ∨ dstBit ≤ -count then dst
  else
    let skip := if dstBit < 0 then (-dstBit).toNat else 0
    let start := (dstBit + skip).toNat
    let length := min (count - skip) (dst.width - start)
    if srcBit ≥ src.width ∨ srcBit ≤ -count then g4FillBits dst start length 2
    else
      let srcBit := srcBit + skip
      let missing := if srcBit < 0 then min (-srcBit).toNat length else 0
      let dst := if srcBit < 0 then g4FillBits dst start missing 2 else dst
      let start := start + missing
      let length := length - missing
      let srcBit := srcBit + missing
      if length = 0 then dst
      else
        let available := if srcBit < src.width then src.width - srcBit.toNat else 0
        let take := min length available
        g4FillBits (g4CopyBits dst start src srcBit.toNat take) (start + take) (length - take) 2

/-- `g4_reverse_window`: the positions of the source decrease from `srcHigh`. -/
def g4ReverseWindow (dst : G4) (dstBit : ℤ) (src : G4) (srcHigh : ℤ) (count : ℕ) : G4 :=
  if count = 0 ∨ dstBit ≥ dst.width ∨ dstBit ≤ -count then dst
  else
    let skip := if dstBit < 0 then (-dstBit).toNat else 0
    let start := (dstBit + skip).toNat
    let length := min (count - skip) (dst.width - start)
    if srcHigh < 0 ∨ srcHigh ≥ src.width + count then g4FillBits dst start length 2
    else
      let srcHigh := srcHigh - skip
      let missing := if srcHigh ≥ src.width then min (srcHigh - src.width + 1).toNat length else 0
      let dst := if srcHigh ≥ src.width then g4FillBits dst start missing 2 else dst
      let start := start + missing
      let length := length - missing
      let srcHigh := srcHigh - missing
      let available := if srcHigh ≥ 0 then srcHigh.toNat + 1 else 0
      let take := min length available
      let dst := if take ≠ 0 then g4CopyReverse dst start src (srcHigh + 1 - take).toNat take else dst
      g4FillBits dst (start + take) (length - take) 2

/-! ## Shapes -/

/-- The arrays of a value have the length of its width `w`, and an empty value is zero. -/
structure G4.Shaped (v : G4) (w : ℕ) : Prop where
  width : v.width = w
  length_a : v.a.length = crWords w
  length_b : ∀ b ∈ v.b, b.length = crWords w
  isSome_b : w ≤ 64 → v.b.isSome = true
  zero : w = 0 → v.aNat = 0 ∧ v.bNat = 0

lemma G4.Canonical.shaped {v : G4} (h : v.Canonical) : v.Shaped v.width where
  width := rfl
  length_a := h.holds_a.length
  length_b b hb := (h.holds_b b hb).length
  isSome_b hw := h.isSome_b.2 (.inl hw)
  zero hw := by
    have ha := h.aNat_lt
    have hb := h.bNat_lt
    rw [hw] at ha hb
    omega

/-- A wide value is shaped if its arrays have the right length. -/
lemma shaped_of_wide {w : ℕ} (hw : 64 < w) {s : Bool} {a : Words} {b : Option Words}
    (ha : a.length = crWords w) (hb : ∀ ws ∈ b, ws.length = crWords w) : G4.Shaped ⟨w, s, a, b⟩ w :=
  ⟨rfl, ha, hb, by omega, by omega⟩

/-- A narrow value is canonical if its words are below the power of its width. -/
lemma canonical_narrow {w : ℕ} (hw : w ≤ 64) (s : Bool) {x y : BitVec 64} (hx : x.toNat < 2 ^ w)
    (hy : y.toNat < 2 ^ w) : G4.Canonical ⟨w, s, [x], some [y]⟩ where
  holds_a := by
    have hholds := holds_singleton hw hx
    exact ⟨hholds.length, rfl, hholds.value.trans_lt hx⟩
  holds_b := by
    rintro _ ⟨⟩
    have hholds := holds_singleton hw hy
    exact ⟨hholds.length, rfl, hholds.value.trans_lt hy⟩
  isSome_b := by simp [hw]

section Shaped

variable {v : G4} {w : ℕ}

/-- The words of a narrow value. -/
lemma G4.Shaped.eq_narrow (h : v.Shaped w) (hw : w ≤ 64) : ∃ x y, v = ⟨w, v.isSigned, [x], some [y]⟩ := by
  have hone : crWords w = 1 := by
    rw [crWords]
    split_ifs <;> omega
  obtain ⟨b, hb⟩ := Option.isSome_iff_exists.1 (h.isSome_b hw)
  obtain ⟨x, hx⟩ := List.length_eq_one_iff.1 (h.length_a.trans hone)
  obtain ⟨y, hy⟩ := List.length_eq_one_iff.1 ((h.length_b b hb).trans hone)
  refine ⟨x, y, ?_⟩
  rw [← hx, ← hy, ← hb, ← h.width]

/-- `llg_gmp_sv4_finish` makes a shaped value canonical. -/
lemma G4.Shaped.finish (h : v.Shaped w) : (llgGmpSv4Finish v).Canonical := by
  rcases lt_or_ge 64 w with hw | hw
  · have hwords : crWords w = g4Words v.width := by
      rw [h.width]
      exact crWords_of_pos (by omega)
    exact (llgGmpSv4Finish_spec (h.width ▸ hw) (h.length_a.trans hwords)
      fun b hb => (h.length_b b hb).trans hwords).1
  obtain ⟨x, y, hv⟩ := h.eq_narrow hw
  rcases eq_zero_or_pos w with hzero | hpos
  · obtain ⟨ha, hb⟩ := h.zero hzero
    rw [hv] at ha hb
    have hx : x.toNat = 0 := by simpa [G4.aNat] using ha
    have hy : y.toNat = 0 := by simpa [G4.bNat] using hb
    have hfinish : llgGmpSv4Finish ⟨w, v.isSigned, [x], some [y]⟩ = ⟨w, v.isSigned, [x], some [y]⟩ := by
      rw [llgGmpSv4Finish, if_pos (by simp [g4Words, hzero])]
    rw [hv, hfinish]
    exact canonical_narrow hw _ (hx ▸ Nat.two_pow_pos w) (hy ▸ Nat.two_pow_pos w)
  · rw [hv, llgGmpSv4Finish_singleton hpos hw]
    exact (g4Small_canonical hw x y v.isSigned).1

/-- The planes are replaced by planes of the same length. -/
lemma G4.Shaped.replace (h : v.Shaped w) {a : Words} {f : Words → Words} (ha : a.length = v.a.length)
    (hb : ∀ b ∈ v.b, (f b).length = b.length) (hzero : w = 0 → a = v.a ∧ ∀ b ∈ v.b, f b = b) :
    G4.Shaped { v with a := a, b := v.b.map f } w where
  width := h.width
  length_a := ha.trans h.length_a
  length_b b hmem := by
    obtain ⟨c, hc, rfl⟩ := Option.map_eq_some_iff.1 hmem
    exact (hb c hc).trans (h.length_b c hc)
  isSome_b hw := by
    rw [Option.isSome_map]
    exact h.isSome_b hw
  zero hw := by
    obtain ⟨hsame, hsameB⟩ := hzero hw
    have hmap : v.b.map f = v.b := by
      cases hv : v.b with
      | none => rfl
      | some b => rw [Option.map_some, hsameB b hv]
    rw [hsame, hmap]
    exact h.zero hw

lemma length_putWord (ws : Words) (limb : ℕ) (mask value : BitVec 64) :
    (putWord ws limb mask value).length = ws.length :=
  List.length_modify ..

lemma length_copyPlane (src : Option Words) (fuel : ℕ) (dst : Words) (dstBit srcBit count : ℕ) :
    (copyPlane src fuel dst dstBit srcBit count).length = dst.length := by
  induction fuel generalizing dst dstBit srcBit count with
  | zero => rfl
  | succ fuel ih =>
    rw [copyPlane]
    split_ifs
    · rfl
    · exact (ih ..).trans (length_putWord ..)

lemma length_copyReversePlane (src : Words) (fuel : ℕ) (dst : Words) (dstBit high count : ℕ) :
    (copyReversePlane src fuel dst dstBit high count).length = dst.length := by
  induction fuel generalizing dst dstBit high count with
  | zero => rfl
  | succ fuel ih =>
    rw [copyReversePlane]
    split_ifs
    · rfl
    · exact (ih ..).trans (length_putWord ..)

lemma length_fillPlane (value : Bool) (fuel : ℕ) (dst : Words) (bit count : ℕ) :
    (fillPlane value fuel dst bit count).length = dst.length := by
  induction fuel generalizing dst bit count with
  | zero => rfl
  | succ fuel ih =>
    rw [fillPlane]
    split_ifs
    · rfl
    all_goals exact (ih ..).trans (length_putWord ..)

lemma holds_replicate_zero (hw : 0 < w) : Holds w (List.replicate (g4Words w) 0) 0 where
  length := List.length_replicate.trans (crWords_of_pos hw).symm
  value := wordsNat_replicate_zero _
  lt := Nat.two_pow_pos w

lemma llgGmpSv4Zero_canonical (w : ℕ) (s : Bool) : (llgGmpSv4Zero w s).Canonical := by
  rw [llgGmpSv4Zero]
  split_ifs with hw
  · exact (g4Small_canonical hw 0 0 s).1
  · rw [llgGmpSv4New, if_pos (by omega)]
    exact (canonical_none (by omega) s (holds_replicate_zero (by omega))).1

lemma llgGmpSv4Zero_shaped (w : ℕ) (s : Bool) : (llgGmpSv4Zero w s).Shaped w := by
  have hwidth : (llgGmpSv4Zero w s).width = w := by
    rw [llgGmpSv4Zero, llgGmpSv4New]
    split_ifs <;> rfl
  have h := (llgGmpSv4Zero_canonical w s).shaped
  rwa [hwidth] at h

lemma G4.Shaped.promote (h : v.Shaped w) : (llgGmpSv4Promote v).Shaped w := by
  rw [llgGmpSv4Promote]
  split_ifs with hb
  · exact h
  refine ⟨h.width, h.length_a, ?_, fun _ => rfl, fun hw => ⟨(h.zero hw).1, wordsNat_replicate_zero _⟩⟩
  rintro _ ⟨⟩
  rw [not_or, h.width] at hb
  rw [h.width]
  exact (holds_replicate_zero (by omega)).length

lemma G4.Shaped.promoteFor (h : v.Shaped w) (src : G4) (srcBit count : ℕ) :
    (promoteFor v src srcBit count).Shaped w := by
  rw [Value.promoteFor]
  split_ifs
  · exact h.promote
  · exact h

lemma G4.Shaped.copyBits (h : v.Shaped w) (dstBit : ℕ) (src : G4) (srcBit : ℕ) {count : ℕ}
    (hcount : w = 0 → count = 0) : (g4CopyBits v dstBit src srcBit count).Shaped w := by
  refine (h.promoteFor src srcBit count).replace (length_copyPlane ..)
    (fun b _ => length_copyPlane ..) fun hw => ?_
  rw [hcount hw]
  exact ⟨rfl, fun _ _ => rfl⟩

lemma G4.Shaped.copyReverse (h : v.Shaped w) (dstBit : ℕ) (src : G4) (srcBit : ℕ) {count : ℕ}
    (hcount : w = 0 → count = 0) : (g4CopyReverse v dstBit src srcBit count).Shaped w := by
  refine (h.promoteFor src srcBit count).replace (length_copyReversePlane ..)
    (fun b _ => length_copyReversePlane ..) fun hw => ?_
  rw [hcount hw]
  exact ⟨rfl, fun _ _ => rfl⟩

lemma G4.Shaped.fillBits (h : v.Shaped w) (bit : ℕ) {count : ℕ} (state : ℕ)
    (hcount : w = 0 → count = 0) : (g4FillBits v bit count state).Shaped w := by
  have hfill : ∀ u : G4, u.Shaped w → G4.Shaped { u with
        a := fillPlane (state = 1 ∨ state = 2) count u.a bit count
        b := u.b.map fun b => fillPlane (state ≥ 2) count b bit count } w := by
    intro u hu
    refine hu.replace (length_fillPlane ..) (fun b _ => length_fillPlane ..) fun hw => ?_
    rw [hcount hw]
    exact ⟨rfl, fun _ _ => rfl⟩
  simp only [g4FillBits]
  split_ifs
  · exact hfill _ h.promote
  · exact hfill v h

lemma G4.Shaped.ite {p : Prop} [Decidable p] {u : G4} (hu : u.Shaped w) (hv : v.Shaped w) :
    (if p then u else v).Shaped w := by
  split_ifs
  · exact hu
  · exact hv

lemma G4.Shaped.copyWindow (h : v.Shaped w) (dstBit : ℤ) (src : G4) (srcBit : ℤ) (count : ℕ) :
    (g4CopyWindow v dstBit src srcBit count).Shaped w := by
  simp only [g4CopyWindow, h.width]
  generalize (if dstBit < 0 then (-dstBit).toNat else 0) = skip
  generalize hlength : min (count - skip) (w - (dstBit + skip).toNat) = length
  generalize hmissing : (if srcBit + skip < 0 then min (-(srcBit + skip)).toNat length else 0) = missing
  -- An empty destination has no room, so that nothing is written to it.
  have hempty : w = 0 → length = 0 := fun hw => by omega
  have hle : missing ≤ length := by
    rw [← hmissing]
    split_ifs <;> omega
  refine h.ite (.ite (h.fillBits _ _ hempty) ?_)
  have hdst := G4.Shaped.ite (p := srcBit + skip < 0)
    (h.fillBits (dstBit + skip).toNat 2 (by omega : w = 0 → missing = 0)) h
  refine hdst.ite ((hdst.copyBits _ _ _ ?_).fillBits _ _ ?_) <;> omega

lemma G4.Shaped.reverseWindow (h : v.Shaped w) (dstBit : ℤ) (src : G4) (srcHigh : ℤ) (count : ℕ) :
    (g4ReverseWindow v dstBit src srcHigh count).Shaped w := by
  simp only [g4ReverseWindow, h.width]
  generalize (if dstBit < 0 then (-dstBit).toNat else 0) = skip
  generalize hlength : min (count - skip) (w - (dstBit + skip).toNat) = length
  generalize hmissing : (if srcHigh - skip ≥ src.width then
    min (srcHigh - skip - src.width + 1).toNat length else 0) = missing
  have hempty : w = 0 → length = 0 := fun hw => by omega
  have hle : missing ≤ length := by
    rw [← hmissing]
    split_ifs <;> omega
  refine h.ite (.ite (h.fillBits _ _ hempty) ?_)
  have hdst := G4.Shaped.ite (p := srcHigh - skip ≥ src.width)
    (h.fillBits (dstBit + skip).toNat 2 (by omega : w = 0 → missing = 0)) h
  refine (G4.Shaped.ite (hdst.copyReverse _ _ _ ?_) hdst).fillBits _ _ ?_ <;> omega

end Shaped

/-! ## Bits -/

/-- The bits of a range of a plane. -/
lemma getLsbD_g4RangeWord (plane : Words) (bit : ℕ) {count k : ℕ} (hcount : count ≤ 64) :
    (g4RangeWord plane bit count).getLsbD k = (decide (k < count) && (wordsNat plane).testBit (bit + k)) := by
  by_cases hk : k < count
  · have hwindow := getLsbD_window (plane.getD · 0) bit (by omega : k < 64)
      (by omega : ¬count > 64 - bit % 64 → _)
    have hmask : (g4Mask count).getLsbD k = true := by
      rw [getLsbD_g4Mask]
      exact decide_eq_true ⟨hk, by omega⟩
    simp only [g4RangeWord, or_ite_zero]
    rw [decide_eq_true hk, Bool.true_and, testBit_wordsNat, ← hwindow, BitVec.getLsbD_and, hmask, Bool.and_true]
  · rw [decide_eq_false hk, Bool.false_and, g4RangeWord, BitVec.getLsbD_and, getLsbD_g4Mask]
    simp [hk]

/-- The bits after some bits of a word are replaced. -/
lemma testBit_putWord {ws : Words} {bit take : ℕ} (hlen : bit / 64 < ws.length) (htake : take ≤ 64 - bit % 64)
    {word : BitVec 64} (hword : ∀ k, take ≤ k → word.getLsbD k = false) (i : ℕ) :
    (wordsNat (putWord ws (bit / 64) (g4Mask take <<< (bit % 64)) (word <<< (bit % 64)))).testBit i =
      if bit ≤ i ∧ i < bit + take then word.getLsbD (i - bit) else (wordsNat ws).testBit i := by
  rw [putWord, testBit_wordsNat_modify _ _ _ _ hlen, testBit_wordsNat ws i]
  by_cases hlimb : i / 64 = bit / 64
  · rw [if_pos hlimb, hlimb]
    have hi64 : i % 64 < 64 := by omega
    simp only [BitVec.getLsbD_or, BitVec.getLsbD_and, BitVec.getLsbD_not, BitVec.getLsbD_shiftLeft,
      getLsbD_g4Mask, hi64, decide_true, Bool.true_and]
    by_cases hlow : i % 64 < bit % 64
    · rw [if_neg (by omega)]
      simp [hlow]
    · have hsub : i % 64 - bit % 64 = i - bit := by omega
      rw [hsub]
      by_cases hin : i < bit + take
      · rw [if_pos (by omega)]
        have hoff : i - bit < take ∧ i - bit < 64 := by omega
        simp [hlow, hoff]
      · rw [if_neg (by omega)]
        have hoff : ¬ (i - bit < take ∧ i - bit < 64) := by omega
        simp [hlow, hoff, hword (i - bit) (by omega)]
  · rw [if_neg hlimb, if_neg (by omega)]

/-- The part of an interval in its first word. -/
lemma take_bounds (bit : ℕ) {count : ℕ} (h : count ≠ 0) :
    let take := if 64 - bit % 64 > count then count else 64 - bit % 64
    0 < take ∧ take ≤ count ∧ take ≤ 64 - bit % 64 := by
  dsimp only
  split_ifs <;> omega

/-- The bits after a copy.  A plane that is copied to itself is read below the bits that are written. -/
lemma testBit_copyPlane (src : Option Words) {fuel : ℕ} {dst : Words} {dstBit srcBit count : ℕ}
    (hfuel : count ≤ fuel) (hlen : dstBit + count ≤ 64 * dst.length)
    (hown : src = none → srcBit + count ≤ dstBit) (i : ℕ) :
    (wordsNat (copyPlane src fuel dst dstBit srcBit count)).testBit i =
      if dstBit ≤ i ∧ i < dstBit + count then (wordsNat (src.getD dst)).testBit (srcBit + (i - dstBit))
      else (wordsNat dst).testBit i := by
  induction fuel generalizing dst dstBit srcBit count with
  | zero =>
    rw [copyPlane, if_neg (by omega)]
  | succ fuel ih =>
    rw [copyPlane]
    by_cases hzero : count = 0
    · rw [if_pos hzero, if_neg (by omega)]
    rw [if_neg hzero]
    simp only
    obtain ⟨hpos, hle⟩ := take_bounds dstBit hzero
    generalize (if 64 - dstBit % 64 > count then count else 64 - dstBit % 64) = take at hpos hle ⊢
    have hput : ∀ j, (wordsNat (putWord dst (dstBit / 64) (g4Mask take <<< (dstBit % 64))
        (g4RangeWord (src.getD dst) srcBit take <<< (dstBit % 64)))).testBit j =
          if dstBit ≤ j ∧ j < dstBit + take then (wordsNat (src.getD dst)).testBit (srcBit + (j - dstBit))
          else (wordsNat dst).testBit j := by
      intro j
      rw [testBit_putWord (by omega) hle.2]
      · refine if_ctx_congr Iff.rfl (fun hj => ?_) fun _ => rfl
        rw [getLsbD_g4RangeWord _ _ (by omega), decide_eq_true (by omega), Bool.true_and]
      · intro k hk
        rw [getLsbD_g4RangeWord _ _ (by omega), decide_eq_false (by omega), Bool.false_and]
    rw [ih (by omega) (by rw [length_putWord]; omega) (fun h => by have := hown h; omega), hput]
    by_cases hrest : dstBit + take ≤ i ∧ i < dstBit + take + (count - take)
    · rw [if_pos hrest, if_pos (by omega)]
      have hindex : srcBit + take + (i - (dstBit + take)) = srcBit + (i - dstBit) := by omega
      rw [hindex]
      cases src with
      | some => rfl
      | none =>
        -- The bits that are read next lie below the ones just written.
        have hbelow := hown rfl
        rw [Option.getD_none, hput, if_neg (by omega)]
        rfl
    · rw [if_neg hrest]
      by_cases hfirst : dstBit ≤ i ∧ i < dstBit + take
      · rw [if_pos hfirst, if_pos (by omega)]
      · rw [if_neg hfirst, if_neg (by omega)]

/-- A round of the reversal exchanges the bits at a distance. -/
lemma getLsbD_swapBits {distance : ℕ} {mask : BitVec 64}
    (hmask : ∀ j < 64, mask.getLsbD j = (j &&& distance == 0))
    (hindex : ∀ j < 64, (if j &&& distance = 0 then j + distance else j - distance) = j ^^^ distance)
    (hbound : ∀ j < 64, j &&& distance ≠ 0 → distance ≤ j ∧ (j - distance) &&& distance = 0)
    (hlow : ∀ j < 64, j &&& distance = 0 → j < distance ∨ (j - distance) &&& distance ≠ 0)
    (word : BitVec 64) {i : ℕ} (hi : i < 64) :
    (swapBits word distance mask).getLsbD i = word.getLsbD (i ^^^ distance) := by
  rw [← hindex i hi, swapBits, BitVec.getLsbD_or, BitVec.getLsbD_and, BitVec.getLsbD_ushiftRight,
    BitVec.getLsbD_shiftLeft, BitVec.getLsbD_and, hmask i hi, decide_eq_true hi]
  by_cases hzero : i &&& distance = 0
  · rw [if_pos hzero, hmask (i - distance) (by omega)]
    rcases hlow i hi hzero with hlt | hne
    · simp [hzero, hlt, add_comm]
    · simp [hzero, hne, add_comm]
  · obtain ⟨hle, hsub⟩ := hbound i hi hzero
    rw [if_neg hzero, hmask (i - distance) (by omega), hsub]
    have hnot : ¬ i < distance := by omega
    simp [hzero, hnot]

/-- `g4_reverse_word` reverses the bits of a word. -/
lemma getLsbD_g4ReverseWord (word : BitVec 64) {i : ℕ} (hi : i < 64) :
    (g4ReverseWord word).getLsbD i = word.getLsbD (63 - i) := by
  have hxor : ∀ {j d : ℕ}, d < 64 → j < 64 → j ^^^ d < 64 :=
    fun hd hj => Nat.xor_lt_two_pow (n := 6) hj hd
  have hrev : ∀ j < 64, j ^^^ 32 ^^^ 16 ^^^ 8 ^^^ 4 ^^^ 2 ^^^ 1 = 63 - j := by decide
  have hlast : ∀ x : BitVec 64, ((x >>> 32) ||| (x <<< 32)).getLsbD i = x.getLsbD (i ^^^ 32) := by
    intro x
    have hindex : ∀ j < 64, (if j < 32 then 32 + j else j - 32) = j ^^^ 32 := by decide
    rw [← hindex i hi, BitVec.getLsbD_or, BitVec.getLsbD_ushiftRight, BitVec.getLsbD_shiftLeft,
      decide_eq_true hi]
    by_cases hlow : i < 32
    · simp [hlow]
    · rw [if_neg hlow, BitVec.getLsbD_of_ge x (32 + i) (by omega)]
      simp [hlow]
  have h32 := hxor (d := 32) (by decide) hi
  have h16 := hxor (d := 16) (by decide) h32
  have h8 := hxor (d := 8) (by decide) h16
  have h4 := hxor (d := 4) (by decide) h8
  have h2 := hxor (d := 2) (by decide) h4
  simp only [g4ReverseWord]
  rw [hlast, getLsbD_swapBits (by decide) (by decide) (by decide) (by decide) _ h32,
    getLsbD_swapBits (by decide) (by decide) (by decide) (by decide) _ h16,
    getLsbD_swapBits (by decide) (by decide) (by decide) (by decide) _ h8,
    getLsbD_swapBits (by decide) (by decide) (by decide) (by decide) _ h4,
    getLsbD_swapBits (by decide) (by decide) (by decide) (by decide) _ h2, hrev i hi]

/-- The low bits of a word, reversed. -/
lemma getLsbD_g4ReverseWord_shift {word : BitVec 64} {take : ℕ} (hpos : 0 < take) (htake : take ≤ 64) (k : ℕ) :
    (g4ReverseWord word >>> (64 - take)).getLsbD k =
      (decide (k < take) && word.getLsbD (take - 1 - k)) := by
  rw [BitVec.getLsbD_ushiftRight]
  by_cases hk : k < take
  · have hindex : 63 - (64 - take + k) = take - 1 - k := by omega
    rw [getLsbD_g4ReverseWord _ (by omega), hindex, decide_eq_true hk, Bool.true_and]
  · rw [BitVec.getLsbD_of_ge _ _ (by omega), decide_eq_false hk, Bool.false_and]

/-- The bits after a reversing copy of the bits below `high`. -/
lemma testBit_copyReversePlane (src : Words) {fuel : ℕ} {dst : Words} {dstBit high count : ℕ}
    (hfuel : count ≤ fuel) (hhigh : count ≤ high) (hlen : dstBit + count ≤ 64 * dst.length) (i : ℕ) :
    (wordsNat (copyReversePlane src fuel dst dstBit high count)).testBit i =
      if dstBit ≤ i ∧ i < dstBit + count then (wordsNat src).testBit (high - 1 - (i - dstBit))
      else (wordsNat dst).testBit i := by
  induction fuel generalizing dst dstBit high count with
  | zero =>
    rw [copyReversePlane, if_neg (by omega)]
  | succ fuel ih =>
    rw [copyReversePlane]
    by_cases hzero : count = 0
    · rw [if_pos hzero, if_neg (by omega)]
    rw [if_neg hzero]
    simp only
    obtain ⟨hpos, hle⟩ := take_bounds dstBit hzero
    generalize (if 64 - dstBit % 64 > count then count else 64 - dstBit % 64) = take at hpos hle ⊢
    rw [ih (by omega) (by omega) (by rw [length_putWord]; omega), testBit_putWord (by omega) hle.2]
    · by_cases hrest : dstBit + take ≤ i ∧ i < dstBit + take + (count - take)
      · rw [if_pos hrest, if_pos (by omega)]
        congr 1
        omega
      · rw [if_neg hrest]
        by_cases hfirst : dstBit ≤ i ∧ i < dstBit + take
        · rw [if_pos hfirst, if_pos (by omega), getLsbD_g4ReverseWord_shift hpos (by omega),
            decide_eq_true (by omega), Bool.true_and, getLsbD_g4RangeWord _ _ (by omega),
            decide_eq_true (by omega), Bool.true_and]
          congr 1
          omega
        · rw [if_neg hfirst, if_neg (by omega)]
    · intro k hk
      rw [getLsbD_g4ReverseWord_shift hpos (by omega), decide_eq_false (by omega), Bool.false_and]

end Lapligence.Value
