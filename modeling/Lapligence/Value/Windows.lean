import Lapligence.Value.Selections

/-!
# Windows of bits

What the copies and fills of `value_gmp/ranges.h` do to the bits of a value.  `G4.bitAt` reads a value at
any integer position, with X outside it, and `overlay` replaces an interval of positions.  A window copies
an interval of the source, in either direction, over an interval of the destination; both may lie partly or
wholly outside their values (`stateAt_g4CopyWindow`, `stateAt_g4ReverseWindow`).  The narrow paths work
within one word (`yields_g4SelectionSmallWindow`, `yields_g4SelectionSmallWrite`).
-/

namespace Lapligence.Value

open WordLists Constraints Elab Option

/-! ## Positions -/

/-- The bit at a position; positions outside the value are X. -/
def G4.bitAt (v : G4) (p : ℤ) : Bit :=
  if 0 ≤ p ∧ p < v.width then v.stateAt p.toNat else .x

/-- The bits with `width` positions from `low` on replaced. -/
def overlay (bits : ℕ → Bit) (low : ℤ) (width : ℕ) (source : ℤ → Bit) (i : ℕ) : Bit :=
  if low ≤ i ∧ i < low + width then source (i - low) else bits i

/-- The bit of a number of the runtime's states. -/
def stateOf (state : ℕ) : Bit := stateBit (state = 1 ∨ state = 2) (state ≥ 2)

section Planes

variable {v : G4} {w : ℕ}
variable {count i bit start missing length : ℕ} {low : ℤ}

lemma G4.Shaped.room (h : v.Shaped w) : w ≤ 64 * v.a.length ∧ ∀ b ∈ v.b, w ≤ 64 * b.length := by
  exact ⟨h.length_a ▸ le_crWords w, fun b hb => h.length_b b hb ▸ le_crWords w⟩

/-- A plane with an interval of its bits replaced. -/
def Patched (old new : ℕ) (low count : ℕ) (bits : ℕ → Bool) : Prop :=
  ∀ i, new.testBit i = if low ≤ i ∧ i < low + count then bits (i - low) else old.testBit i

lemma patched_fillPlane (value : Bool) {fuel : ℕ} {dst : Words} (hfuel : count ≤ fuel)
    (hlen : bit + count ≤ 64 * dst.length) :
    Patched (wordsNat dst) (wordsNat (fillPlane value fuel dst bit count)) bit count fun _ => value := by
  intro i
  induction fuel generalizing dst bit count with
  | zero => rw [fillPlane, if_neg (by omega)]
  | succ fuel ih =>
    rw [fillPlane]
    by_cases hzero : count = 0
    · rw [if_pos hzero, if_neg (by omega)]
    rw [if_neg hzero]
    simp only
    generalize htake : (if 64 - bit % 64 > count then count else 64 - bit % 64) = take
    have hpos : 0 < take := by
      rw [← htake]
      split_ifs <;> omega
    have hle : take ≤ count ∧ take ≤ 64 - bit % 64 := by
      rw [← htake]
      split_ifs <;> omega
    have hvalue : (if value then g4Mask take <<< (bit % 64) else 0) =
        (if value then g4Mask take else 0) <<< (bit % 64) := by
      split_ifs
      · rfl
      · simp
    have hword : ∀ k, take ≤ k → (if value then g4Mask take else 0).getLsbD k = false := fun k hk => by
      rw [getLsbD_ite_zero, getLsbD_g4Mask, decide_eq_false (by omega : ¬(k < take ∧ k < 64)), Bool.and_false]
    have hput := testBit_putWord (by omega : bit / 64 < dst.length) hle.2 hword i
    rw [ih (by omega) (by rw [length_putWord]; omega), hvalue, hput]
    by_cases hrest : bit + take ≤ i ∧ i < bit + take + (count - take)
    · have hin : bit ≤ i ∧ i < bit + count := by omega
      rw [if_pos hrest, if_pos hin]
    rw [if_neg hrest]
    by_cases hfirst : bit ≤ i ∧ i < bit + take
    · have hin : bit ≤ i ∧ i < bit + count := by omega
      have hmask : (g4Mask take).getLsbD (i - bit) = true := by
        rw [getLsbD_g4Mask]
        exact decide_eq_true (by omega)
      rw [if_pos hfirst, if_pos hin]
      cases value
      · simp
      · simpa using hmask
    · have hout : ¬(bit ≤ i ∧ i < bit + count) := by omega
      rw [if_neg hfirst, if_neg hout]

/-- The bits of a value whose planes are replaced.  Without a plane `b` the replaced bits are known. -/
lemma stateAt_patch {d : G4} {a : Words} {f : Words → Words} {low : ℕ} {p q : ℕ → Bool}
    (ha : Patched d.aNat (wordsNat a) low count p)
    (hb : ∀ b ∈ d.b, Patched (wordsNat b) (wordsNat (f b)) low count q)
    (hnone : d.b = none → ∀ k < count, q k = false) (i : ℕ) :
    G4.stateAt { d with a := a, b := d.b.map f } i =
      if low ≤ i ∧ i < low + count then stateBit (p (i - low)) (q (i - low)) else d.stateAt i := by
  have hbBit : (G4.bNat { d with a := a, b := d.b.map f }).testBit i =
      if low ≤ i ∧ i < low + count then q (i - low) else d.bNat.testBit i := by
    cases hd : d.b with
    | none =>
      simp only [G4.bNat, map_none, getD_none, hd, Nat.zero_testBit]
      split_ifs with hin
      · exact (hnone hd _ (by omega)).symm
      · rfl
    | some b =>
      simp only [G4.bNat, hd, map_some, getD_some]
      exact hb b hd i
  have haBit : (G4.aNat { d with a := a, b := d.b.map f }).testBit i =
      if low ≤ i ∧ i < low + count then p (i - low) else d.aNat.testBit i := ha i
  rw [G4.stateAt, haBit, hbBit]
  split_ifs <;> rfl

lemma promote_planes (v : G4) :
    (llgGmpSv4Promote v).a = v.a ∧ (llgGmpSv4Promote v).bNat = v.bNat ∧
      (llgGmpSv4Promote v).isSigned = v.isSigned := by
  rw [llgGmpSv4Promote]
  split_ifs with h
  · exact ⟨rfl, rfl, rfl⟩
  · rw [not_or, Bool.not_eq_true, isSome_eq_false_iff, isNone_iff_eq_none] at h
    refine ⟨rfl, ?_, rfl⟩
    rw [G4.bNat, G4.bNat, h.2]
    exact wordsNat_replicate_zero _

lemma promote_b_ne_none (hw : v.width > 64) : (llgGmpSv4Promote v).b ≠ none := by
  rw [llgGmpSv4Promote]
  split_ifs with h
  · obtain h | h := h
    · omega
    · exact ne_none_iff_isSome.2 h
  · simp

/-- Only a wide value lacks the plane `b`. -/
lemma G4.Shaped.wide_of_none (h : v.Shaped w) (hb : v.b = none) : v.width > 64 := by
  by_contra hnarrow
  have := h.isSome_b (h.width ▸ Nat.not_lt.1 hnarrow)
  rw [hb] at this
  exact absurd this (by decide)

lemma stateAt_promote (v : G4) (i : ℕ) : (llgGmpSv4Promote v).stateAt i = v.stateAt i := by
  obtain ⟨ha, hb, -⟩ := promote_planes v
  rw [G4.stateAt, G4.stateAt, G4.aNat, ha, hb]
  rfl

/-! ## Fills and copies -/

lemma stateAt_g4FillBits (h : v.Shaped w) (hfits : bit + count ≤ w) (state i : ℕ) :
    (g4FillBits v bit count state).stateAt i =
      if bit ≤ i ∧ i < bit + count then stateOf state else v.stateAt i := by
  have hfill : ∀ d : G4, d.Shaped w → (d.b = none → count ≠ 0 → ¬state ≥ 2) →
      G4.stateAt { d with
        a := fillPlane (state = 1 ∨ state = 2) count d.a bit count
        b := d.b.map fun b => fillPlane (state ≥ 2) count b bit count } i =
      if bit ≤ i ∧ i < bit + count then stateOf state else d.stateAt i := by
    intro d hd hnone
    obtain ⟨hroomA, hroomB⟩ := hd.room
    refine stateAt_patch (patched_fillPlane _ le_rfl (hfits.trans hroomA))
      (fun b hb => patched_fillPlane _ le_rfl (hfits.trans (hroomB b hb))) (fun hb k hk => ?_) i
    exact decide_eq_false (hnone hb (by omega))
  by_cases hpromote : count ≠ 0 ∧ state ≥ 2 ∧ v.width > 64 ∧ v.b.isNone = true
  · have hb : (llgGmpSv4Promote v).b ≠ none := promote_b_ne_none hpromote.2.2.1
    simp only [g4FillBits, if_pos hpromote]
    rw [hfill _ h.promote fun hnone => absurd hnone hb, stateAt_promote]
  · simp only [g4FillBits, if_neg hpromote]
    refine hfill v h fun hb hcount hstate => hpromote ⟨hcount, hstate, ?_, by rw [hb]; rfl⟩
    exact h.wide_of_none hb

/-- A scan that finds nothing has seen the whole interval. -/
lemma testBit_of_scanRange {plane : Words} {fuel remaining : ℕ} (hfuel : remaining ≤ fuel)
    (h : scanRange plane fuel bit remaining = false) {k : ℕ} (hk : k < remaining) :
    (wordsNat plane).testBit (bit + k) = false := by
  induction fuel generalizing bit remaining k with
  | zero => omega
  | succ fuel ih =>
    rw [scanRange, if_neg (by omega)] at h
    simp only at h
    generalize htake : (if remaining < 64 then remaining else 64) = take at h
    have hle : take ≤ 64 ∧ take ≤ remaining ∧ 0 < take := by
      rw [← htake]
      split_ifs <;> omega
    split_ifs at h with hword
    rcases lt_or_ge k take with hlow | hhigh
    · have hbit := getLsbD_g4RangeWord plane bit (k := k) hle.1
      rw [not_not.1 hword, decide_eq_true hlow, Bool.true_and] at hbit
      simpa using hbit.symm
    · have hindex : bit + k = bit + take + (k - take) := by omega
      rw [hindex]
      exact ih (by omega) h (by omega)

/-- Without a plane `b` after the test, the bits to be copied are known. -/
lemma promoteFor_spec (h : v.Shaped w) (src : G4) (srcBit count : ℕ) :
    (promoteFor v src srcBit count).a = v.a ∧
      (∀ i, (promoteFor v src srcBit count).stateAt i = v.stateAt i) ∧
      (promoteFor v src srcBit count).isSigned = v.isSigned ∧
      ((promoteFor v src srcBit count).b = none →
        ∀ k < count, src.bNat.testBit (srcBit + k) = false) := by
  rw [Value.promoteFor]
  split_ifs with hpromote
  · refine ⟨(promote_planes v).1, stateAt_promote v, (promote_planes v).2.2, fun hb => ?_⟩
    exact absurd hb (promote_b_ne_none hpromote.1)
  · refine ⟨rfl, fun _ => rfl, rfl, fun hb k hk => ?_⟩
    have hwide := h.wide_of_none hb
    rw [bNat_eq_wordsNat]
    cases hsrc : src.b with
    | none => simp [G4.wordsB, hsrc]
    | some =>
      refine testBit_of_scanRange le_rfl (Bool.not_eq_true _ ▸ fun hscan => hpromote ?_) hk
      exact ⟨hwide, by rw [hb]; rfl, by rw [hsrc]; rfl, hscan⟩

lemma stateAt_g4CopyBits (h : v.Shaped w) {dstBit : ℕ} (hfits : dstBit + count ≤ w) (src : G4)
    (srcBit i : ℕ) :
    (g4CopyBits v dstBit src srcBit count).stateAt i =
      if dstBit ≤ i ∧ i < dstBit + count then src.stateAt (srcBit + (i - dstBit)) else v.stateAt i := by
  obtain ⟨-, hstate, -, hnone⟩ := promoteFor_spec h src srcBit count
  obtain ⟨hroomA, hroomB⟩ := (h.promoteFor src srcBit count).room
  have hcopy : ∀ src' : Words, ∀ dst : Words, w ≤ 64 * dst.length →
      Patched (wordsNat dst) (wordsNat (copyPlane (some src') count dst dstBit srcBit count)) dstBit count
        fun k => (wordsNat src').testBit (srcBit + k) :=
    fun src' dst hroom i => testBit_copyPlane (some src') le_rfl (hfits.trans hroom) (by simp) i
  rw [← hstate i]
  have := stateAt_patch (hcopy src.a _ hroomA) (fun b hb => hcopy src.wordsB b (hroomB b hb))
    (by rw [← bNat_eq_wordsNat]; exact hnone) i
  rw [← bNat_eq_wordsNat] at this
  exact this

lemma stateAt_g4CopyReverse (h : v.Shaped w) {dstBit : ℕ} (hfits : dstBit + count ≤ w) (src : G4)
    (srcBit i : ℕ) :
    (g4CopyReverse v dstBit src srcBit count).stateAt i =
      if dstBit ≤ i ∧ i < dstBit + count then src.stateAt (srcBit + count - 1 - (i - dstBit))
      else v.stateAt i := by
  obtain ⟨-, hstate, -, hnone⟩ := promoteFor_spec h src srcBit count
  obtain ⟨hroomA, hroomB⟩ := (h.promoteFor src srcBit count).room
  have hcopy : ∀ src' : Words, ∀ dst : Words, w ≤ 64 * dst.length →
      Patched (wordsNat dst)
        (wordsNat (copyReversePlane src' count dst dstBit (srcBit + count) count)) dstBit count
        fun k => (wordsNat src').testBit (srcBit + count - 1 - k) :=
    fun src' dst hroom i => testBit_copyReversePlane src' le_rfl (by omega) (hfits.trans hroom) i
  rw [← hstate i]
  have := stateAt_patch (hcopy src.a _ hroomA) (fun b hb => hcopy src.wordsB b (hroomB b hb))
    (fun hb k hk => by
      have hindex : srcBit + count - 1 - k = srcBit + (count - 1 - k) := by omega
      rw [hindex, ← bNat_eq_wordsNat]
      exact hnone hb _ (by omega)) i
  rw [← bNat_eq_wordsNat] at this
  exact this

/-! ## Windows -/

lemma bitAt_of_mem {p : ℤ} {k : ℕ} (hp : p = k) (hk : k < v.width) : v.bitAt p = v.stateAt k := by
  rw [G4.bitAt, if_pos (by omega), hp, Int.toNat_natCast]

lemma bitAt_of_notMem {p : ℤ} (hp : p < 0 ∨ v.width ≤ p) : v.bitAt p = .x :=
  if_neg (by omega)

lemma overlay_of_mem {bits : ℕ → Bit} {width : ℕ} {source : ℤ → Bit} (h : low ≤ i ∧ i < low + width) :
    overlay bits low width source i = source (i - low) := if_pos h

lemma overlay_of_notMem {bits : ℕ → Bit} {width : ℕ} {source : ℤ → Bit}
    (h : ¬(low ≤ i ∧ i < low + width)) : overlay bits low width source i = bits i := if_neg h

lemma g4FillBits_zero (d : G4) (bit state : ℕ) : g4FillBits d bit 0 state = d := by
  obtain ⟨width, sign, a, b⟩ := d
  cases b <;> simp [g4FillBits, fillPlane]

lemma g4CopyBits_zero (d : G4) (dstBit : ℕ) (src : G4) (srcBit : ℕ) :
    g4CopyBits d dstBit src srcBit 0 = d := by
  obtain ⟨width, sign, a, b⟩ := d
  cases b <;> simp [g4CopyBits, promoteFor, scanRange, copyPlane]

lemma g4CopyReverse_zero (d : G4) (dstBit : ℕ) (src : G4) (srcBit : ℕ) :
    g4CopyReverse d dstBit src srcBit 0 = d := by
  obtain ⟨width, sign, a, b⟩ := d
  cases b <;> simp [g4CopyReverse, promoteFor, scanRange, copyReversePlane]

/-- The bits of a window that the source does not have. -/
lemma missing_filled (h : v.Shaped w) {p : Prop} [Decidable p] (hfits : start + missing ≤ w)
    (hnone : ¬p → missing = 0) (i : ℕ) :
    G4.Shaped (if p then g4FillBits v start missing 2 else v) w ∧
      (if p then g4FillBits v start missing 2 else v).stateAt i =
        if start ≤ i ∧ i < start + missing then .x else v.stateAt i := by
  by_cases hp : p
  · rw [if_pos hp]
    exact ⟨h.fillBits start 2 (by omega), stateAt_g4FillBits h hfits ..⟩
  · rw [if_neg hp, if_neg (by have := hnone hp; omega)]
    exact ⟨h, rfl⟩

/-- The positions of a window that lie in the destination. -/
lemma window_clipped {dstBit : ℤ} {skip : ℕ} (hi : i < w)
    (hskip : (if dstBit < 0 then (-dstBit).toNat else 0) = skip)
    (hlength : min (count - skip) (w - (dstBit + skip).toNat) = length)
    (hsome : ¬(count = 0 ∨ dstBit ≥ w ∨ dstBit ≤ -count)) :
    (skip : ℤ) = max 0 (-dstBit) ∧ (dstBit + skip).toNat + length ≤ w ∧
      ((dstBit ≤ i ∧ (i : ℤ) < dstBit + count) ↔
        ((dstBit + skip).toNat ≤ i ∧ i < (dstBit + skip).toNat + length)) := by
  have hskip' : (skip : ℤ) = max 0 (-dstBit) := by
    rw [← hskip]
    split_ifs <;> omega
  omega

/-- The clipped part of a window: X below the source, the bits of the source, X above it. -/
lemma stateAt_clipped (h : v.Shaped w) {src : G4} {take : ℕ}
    (hfits : start + length ≤ w) (hmissing : missing = min (-low).toNat length)
    (htake : take = min (length - missing) (src.width - (low + missing).toNat)) (i : ℕ) :
    (g4FillBits (g4CopyBits (if low < 0 then g4FillBits v start missing 2 else v) (start + missing) src
      (low + missing).toNat take) (start + missing + take) (length - missing - take) 2).stateAt i =
      if start ≤ i ∧ i < start + length then src.bitAt (low + (i - start)) else v.stateAt i := by
  obtain ⟨hfirst, hbits⟩ := missing_filled h (p := low < 0) (show start + missing ≤ w by omega) (by omega) i
  rw [stateAt_g4FillBits (hfirst.copyBits _ _ _ (by omega)) (by omega),
    stateAt_g4CopyBits hfirst (by omega), hbits, G4.bitAt]
  split_ifs
  all_goals first | rfl | omega | skip
  · congr 1
    omega

/-- A window of the source over a window of the destination. -/
lemma stateAt_g4CopyWindow (h : v.Shaped w) (dstBit : ℤ) (src : G4) (srcBit : ℤ) (count : ℕ)
    (hi : i < w) :
    (g4CopyWindow v dstBit src srcBit count).stateAt i =
      overlay v.stateAt dstBit count (fun k => src.bitAt (srcBit + k)) i := by
  simp only [g4CopyWindow, h.width]
  generalize hskip : (if dstBit < 0 then (-dstBit).toNat else 0) = skip
  generalize hlength : min (count - skip) (w - (dstBit + skip).toNat) = length
  by_cases hnone : count = 0 ∨ dstBit ≥ w ∨ dstBit ≤ -count
  · rw [if_pos hnone, overlay_of_notMem (by omega)]
  obtain ⟨hskip', hfits, hin⟩ := window_clipped hi hskip hlength hnone
  rw [if_neg hnone, overlay, if_congr hin rfl rfl]
  by_cases hout : srcBit ≥ src.width ∨ srcBit ≤ -count
  · rw [if_pos hout, stateAt_g4FillBits h (by omega)]
    refine if_ctx_congr Iff.rfl (fun hi => ?_) fun _ => rfl
    exact (bitAt_of_notMem (by omega)).symm
  rw [if_neg hout]
  have hmissing : (if srcBit + skip < 0 then min (-(srcBit + skip)).toNat length else 0) =
      min (-(srcBit + skip)).toNat length := by
    split_ifs <;> omega
  rw [hmissing]
  generalize hm : min (-(srcBit + skip)).toNat length = missing
  have havailable : (if srcBit + skip + missing < src.width then src.width - (srcBit + skip + missing).toNat
      else 0) = src.width - (srcBit + skip + missing).toNat := by
    split_ifs <;> omega
  have hclipped := stateAt_clipped h hfits hm.symm
    (rfl : _ = min (length - missing) (src.width - (srcBit + skip + missing).toNat)) i
  have hsource : src.bitAt (srcBit + skip + (i - (dstBit + skip).toNat)) = src.bitAt (srcBit + (i - dstBit)) := by
    congr 1
    omega
  rw [hsource] at hclipped
  rw [havailable]
  by_cases hzero : length - missing = 0
  · rw [if_pos hzero, ← hclipped, hzero, Nat.zero_min, g4CopyBits_zero, Nat.sub_zero, g4FillBits_zero]
  · rw [if_neg hzero, hclipped]

/-- The clipped part of a reversed window: X above the source, the bits of the source, X below it. -/
lemma stateAt_reverse_clipped (h : v.Shaped w) {src : G4} {high : ℤ} {take : ℕ}
    (hfits : start + length ≤ w) (hmissing : missing = min (high - src.width + 1).toNat length)
    (htake : take = min (length - missing) (high - missing + 1).toNat) (i : ℕ) :
    (g4FillBits (g4CopyReverse (if high ≥ src.width then g4FillBits v start missing 2 else v)
      (start + missing) src (high - missing + 1 - take).toNat take) (start + missing + take)
      (length - missing - take) 2).stateAt i =
      if start ≤ i ∧ i < start + length then src.bitAt (high - (i - start)) else v.stateAt i := by
  obtain ⟨hfirst, hbits⟩ := missing_filled h (p := high ≥ src.width) (show start + missing ≤ w by omega) (by omega) i
  rw [stateAt_g4FillBits (hfirst.copyReverse _ _ _ (by omega)) (by omega),
    stateAt_g4CopyReverse hfirst (by omega), hbits, G4.bitAt]
  split_ifs
  all_goals first | rfl | omega | skip
  · congr 1
    omega

/-- A window of the source, read downwards, over a window of the destination. -/
lemma stateAt_g4ReverseWindow (h : v.Shaped w) (dstBit : ℤ) (src : G4) (srcHigh : ℤ) (count : ℕ)
    (hi : i < w) :
    (g4ReverseWindow v dstBit src srcHigh count).stateAt i =
      overlay v.stateAt dstBit count (fun k => src.bitAt (srcHigh - k)) i := by
  simp only [g4ReverseWindow, h.width]
  generalize hskip : (if dstBit < 0 then (-dstBit).toNat else 0) = skip
  generalize hlength : min (count - skip) (w - (dstBit + skip).toNat) = length
  by_cases hnone : count = 0 ∨ dstBit ≥ w ∨ dstBit ≤ -count
  · rw [if_pos hnone, overlay_of_notMem (by omega)]
  obtain ⟨hskip', hfits, hin⟩ := window_clipped hi hskip hlength hnone
  rw [if_neg hnone, overlay, if_congr hin rfl rfl]
  by_cases hout : srcHigh < 0 ∨ srcHigh ≥ src.width + count
  · rw [if_pos hout, stateAt_g4FillBits h (by omega)]
    refine if_ctx_congr Iff.rfl (fun hi => ?_) fun _ => rfl
    exact (bitAt_of_notMem (by omega)).symm
  rw [if_neg hout]
  have hmissing : (if srcHigh - skip ≥ src.width then min (srcHigh - skip - src.width + 1).toNat length
      else 0) = min (srcHigh - skip - src.width + 1).toNat length := by
    split_ifs <;> omega
  rw [hmissing]
  generalize hm : min (srcHigh - skip - src.width + 1).toNat length = missing
  have havailable : (if srcHigh - skip - missing ≥ 0 then (srcHigh - skip - missing).toNat + 1 else 0) =
      (srcHigh - skip - missing + 1).toNat := by
    split_ifs <;> omega
  have hclipped := stateAt_reverse_clipped h hfits hm.symm rfl i
  have hsource : src.bitAt (srcHigh - skip - (i - (dstBit + skip).toNat)) = src.bitAt (srcHigh - (i - dstBit)) := by
    congr 1
    omega
  rw [hsource] at hclipped
  rw [havailable]
  generalize min (length - missing) (srcHigh - skip - missing + 1).toNat = take at hclipped ⊢
  by_cases hzero : take = 0
  · rw [if_neg (by simpa using hzero), ← hclipped, hzero, g4CopyReverse_zero]
  · rw [if_pos hzero, hclipped]

/-! ## Finished values -/

lemma isSigned_g4FillBits (d : G4) (bit count state : ℕ) :
    (g4FillBits d bit count state).isSigned = d.isSigned := by
  simp only [g4FillBits]
  split_ifs
  · exact (promote_planes d).2.2
  · rfl

lemma isSigned_promoteFor (d src : G4) (srcBit count : ℕ) :
    (promoteFor d src srcBit count).isSigned = d.isSigned := by
  rw [promoteFor]
  split_ifs
  · exact (promote_planes d).2.2
  · rfl

lemma isSigned_g4CopyBits (d : G4) (dstBit : ℕ) (src : G4) (srcBit count : ℕ) :
    (g4CopyBits d dstBit src srcBit count).isSigned = d.isSigned :=
  isSigned_promoteFor d src srcBit count

lemma isSigned_g4CopyReverse (d : G4) (dstBit : ℕ) (src : G4) (srcBit count : ℕ) :
    (g4CopyReverse d dstBit src srcBit count).isSigned = d.isSigned :=
  isSigned_promoteFor d src srcBit count

lemma isSigned_g4CopyWindow (d : G4) (dstBit : ℤ) (src : G4) (srcBit : ℤ) (count : ℕ) :
    (g4CopyWindow d dstBit src srcBit count).isSigned = d.isSigned := by
  simp only [g4CopyWindow]
  split_ifs <;> simp only [isSigned_g4FillBits, isSigned_g4CopyBits]

lemma isSigned_g4ReverseWindow (d : G4) (dstBit : ℤ) (src : G4) (srcHigh : ℤ) (count : ℕ) :
    (g4ReverseWindow d dstBit src srcHigh count).isSigned = d.isSigned := by
  simp only [g4ReverseWindow]
  split_ifs <;> simp only [isSigned_g4FillBits, isSigned_g4CopyReverse]

lemma stateAt_singleton (w : ℕ) (s : Bool) (x y : BitVec 64) (i : ℕ) :
    G4.stateAt ⟨w, s, [x], some [y]⟩ i = stateBit (x.getLsbD i) (y.getLsbD i) := by
  simp [G4.stateAt, G4.aNat, G4.bNat, BitVec.testBit_toNat]

lemma G4.Shaped.yields_finish (h : v.Shaped w) : Yields (llgGmpSv4Finish v) w v.isSigned v.stateAt := by
  rcases lt_or_ge 64 w with hw | hw
  · have hwords : crWords w = g4Words w := crWords_of_pos (by omega)
    have hfinish := yields_llgGmpSv4Finish (s := v.isSigned) (f := v.stateAt) hw
      (h.length_a.trans hwords) (fun b hb => (h.length_b b hb).trans hwords) fun i _ => by
        rw [G4.stateAt, bNat_eq_wordsNat]
        rfl
    have hv : v = ⟨w, v.isSigned, v.a, v.b⟩ := by rw [← h.width]
    rwa [← hv] at hfinish
  obtain ⟨x, y, hv⟩ := h.eq_narrow hw
  rcases eq_zero_or_pos w with rfl | hpos
  · have hkeep : (llgGmpSv4Finish v).width = v.width ∧ (llgGmpSv4Finish v).isSigned = v.isSigned := by
      rw [llgGmpSv4Finish]
      split_ifs <;> exact ⟨rfl, rfl⟩
    exact ⟨h.finish, hkeep.1.trans h.width, hkeep.2, fun i hi => absurd hi (Nat.not_lt_zero i)⟩
  · rw [hv, llgGmpSv4Finish_singleton hpos hw]
    exact yields_g4Small hw fun i _ => (stateAt_singleton w v.isSigned x y i).symm

/-- A window over a canonical value, finished. -/
lemma yields_copyWindow (h : v.Shaped w) (dstBit : ℤ) (src : G4) (srcBit : ℤ) (count : ℕ) :
    Yields (llgGmpSv4Finish (g4CopyWindow v dstBit src srcBit count)) w v.isSigned
      (overlay v.stateAt dstBit count fun k => src.bitAt (srcBit + k)) := by
  have hfinish := (h.copyWindow dstBit src srcBit count).yields_finish
  rw [isSigned_g4CopyWindow] at hfinish
  exact hfinish.congr fun i hi => stateAt_g4CopyWindow h dstBit src srcBit count hi

lemma yields_reverseWindow (h : v.Shaped w) (dstBit : ℤ) (src : G4) (srcHigh : ℤ) (count : ℕ) :
    Yields (llgGmpSv4Finish (g4ReverseWindow v dstBit src srcHigh count)) w v.isSigned
      (overlay v.stateAt dstBit count fun k => src.bitAt (srcHigh - k)) := by
  have hfinish := (h.reverseWindow dstBit src srcHigh count).yields_finish
  rw [isSigned_g4ReverseWindow] at hfinish
  exact hfinish.congr fun i hi => stateAt_g4ReverseWindow h dstBit src srcHigh count hi

end Planes

/-! ## Narrow values -/

section Narrow

variable {v source : G4} {w : ℕ}

lemma G4.Canonical.stateAt_small (h : v.Canonical) (hw : v.width ≤ 64) (i : ℕ) :
    v.stateAt i = stateBit (v.smallA.getLsbD i) (v.smallB.getLsbD i) := by
  rw [G4.stateAt, ← h.toNat_smallA hw, ← h.toNat_smallB hw, BitVec.testBit_toNat, BitVec.testBit_toNat]

/-- Some bits of a word are replaced by those of another word. -/
lemma getLsbD_masked (x y : BitVec 64) (start count : ℕ) (hi : i < 64) :
    ((x &&& ~~~(g4Mask count <<< start)) ||| (y &&& (g4Mask count <<< start))).getLsbD i =
      if start ≤ i ∧ i < start + count then y.getLsbD i else x.getLsbD i := by
  have hmask : (g4Mask count <<< start).getLsbD i = decide (start ≤ i ∧ i < start + count) := by
    rw [BitVec.getLsbD_shiftLeft, getLsbD_g4Mask, Bool.eq_iff_iff]
    simp only [Bool.and_eq_true, Bool.not_eq_true', decide_eq_true_iff, decide_eq_false_iff_not]
    omega
  simp only [BitVec.getLsbD_or, BitVec.getLsbD_and, BitVec.getLsbD_not, hmask]
  split_ifs with hin <;> simp [hi, hin]

/-- Bits below a width, shifted into place. -/
lemma shiftLeft_masked {y : BitVec 64} (h : Below count y) (start : ℕ) :
    y <<< start = y <<< start &&& (g4Mask count <<< start) := by
  refine BitVec.eq_of_getLsbD_eq fun i hi => ?_
  simp only [BitVec.getLsbD_and, BitVec.getLsbD_shiftLeft, getLsbD_g4Mask]
  by_cases hlow : i < start
  · simp [hlow]
  · by_cases hcount : i - start < count
    · have hboth : i - start < count ∧ i - start < 64 := by omega
      rw [decide_eq_true hboth, decide_eq_true hi, decide_eq_false hlow]
      simp
    · simp [h (i - start) (by omega)]

/-- `g4_small(UINT64_MAX, UINT64_MAX, width, 0)` is all X. -/
lemma yields_allOnes (hw : w ≤ 64) :
    Yields (g4Small (BitVec.allOnes 64) (BitVec.allOnes 64) w false) w false fun _ => .x := by
  refine yields_g4Small hw fun k hk => ?_
  rw [BitVec.getLsbD_allOnes, decide_eq_true (by omega)]
  rfl

/-- A window of a narrow value. -/
lemma yields_g4SelectionSmallWindow (hsource : source.Canonical) (hs : source.width ≤ 64) (low : ℤ)
    (hw : w ≤ 64) :
    Yields (g4SelectionSmallWindow source low w) w false fun i => source.bitAt (low + i) := by
  refine ⟨g4SelectionSmallWindow_canonical source low hw, g4SelectionSmallWindow_width source low w, ?_, ?_⟩
  · simp only [g4SelectionSmallWindow]
    split_ifs <;> rfl
  intro i hi
  have hall := (yields_allOnes hw).stateAt i hi
  simp only [g4SelectionSmallWindow]
  generalize hinput : (if low < 0 then 0 else low.toNat) = input
  generalize houtput : (if low < 0 then (-low).toNat else 0) = output
  have hshift : low + output = input := by
    rw [← hinput, ← houtput]
    split_ifs <;> omega
  have hone : input = 0 ∨ output = 0 := by
    rw [← hinput, ← houtput]
    split_ifs <;> omega
  by_cases hnone : w = 0 ∨ low ≥ source.width ∨ low ≤ -w
  · rw [if_pos hnone, hall, bitAt_of_notMem (by omega)]
  rw [if_neg hnone]
  generalize hcount : min (source.width - input) (w - output) = count
  by_cases hzero : count = 0
  · rw [if_pos hzero, hall, bitAt_of_notMem (by omega)]
  rw [if_neg hzero, G4.putSmall, stateAt_singleton, getLsbD_masked _ _ _ _ (by omega),
    getLsbD_masked _ _ _ _ (by omega)]
  by_cases hin : output ≤ i ∧ i < output + count
  · rw [if_pos hin, if_pos hin, bitAt_of_mem (k := input + (i - output)) (by omega) (by omega),
      hsource.stateAt_small hs]
    simp only [BitVec.getLsbD_shiftLeft, BitVec.getLsbD_ushiftRight, show i < 64 by omega,
      Nat.not_lt.2 hin.1, decide_true, decide_false, Bool.not_false, Bool.true_and]
  · rw [if_neg hin, if_neg hin, bitAt_of_notMem (by omega),
      ← (g4Small_ok hw _ _ _).stateAt_small hw]
    exact hall

/-- A write of a window of a narrow value into a narrow value. -/
lemma yields_g4SelectionSmallWrite (hv : v.Canonical) (hw : v.width ≤ 64) (hsource : source.Canonical)
    (hs : source.width ≤ 64) (low sourceLow : ℤ) (width : ℕ) :
    Yields (g4SelectionSmallWrite v low source sourceLow width) v.width v.isSigned
      (overlay v.stateAt low width fun k => source.bitAt (sourceLow + k)) := by
  refine ⟨hv.smallWrite hw low source sourceLow width, ?_, ?_, ?_⟩
  · simp only [g4SelectionSmallWrite]
    split_ifs <;> rfl
  · simp only [g4SelectionSmallWrite]
    split_ifs <;> rfl
  intro i hi
  simp only [g4SelectionSmallWrite]
  generalize hskip : (if low < 0 then (-low).toNat else 0) = skip
  have hskip' : (skip : ℤ) = max 0 (-low) := by
    rw [← hskip]
    split_ifs <;> omega
  generalize hstart : (low + skip).toNat = start
  generalize hcount : min (width - skip) (v.width - start) = count
  by_cases hnone : width = 0 ∨ low ≥ v.width ∨ low ≤ -width
  · rw [if_pos hnone, overlay_of_notMem (by omega)]
  rw [if_neg hnone]
  generalize hfrom : (if sourceLow ≥ source.width ∨ sourceLow ≤ -width then (source.width : ℤ)
    else sourceLow + skip) = position
  have hwindow := yields_g4SelectionSmallWindow hsource hs position (show count ≤ 64 by omega)
  have hA := hwindow.canonical.below_smallA (by rw [hwindow.width]; omega)
  have hB := hwindow.canonical.below_smallB (by rw [hwindow.width]; omega)
  rw [hwindow.width] at hA hB
  rw [shiftLeft_masked hA, shiftLeft_masked hB, G4.putSmall, stateAt_singleton,
    getLsbD_masked _ _ _ _ (by omega), getLsbD_masked _ _ _ _ (by omega)]
  by_cases hin : start ≤ i ∧ i < start + count
  · have hbit := hwindow.stateAt (i - start) (by omega)
    rw [hwindow.canonical.stateAt_small (by rw [hwindow.width]; omega)] at hbit
    rw [if_pos hin, if_pos hin, overlay_of_mem (by omega), BitVec.getLsbD_shiftLeft,
      BitVec.getLsbD_shiftLeft]
    simp only [show i < 64 by omega, Nat.not_lt.2 hin.1, decide_true, decide_false, Bool.not_false,
      Bool.true_and]
    rw [hbit, ← hfrom]
    split_ifs with hout
    · rw [bitAt_of_notMem (by omega), bitAt_of_notMem (by omega)]
    · congr 1
      omega
  · rw [if_neg hin, if_neg hin, overlay_of_notMem (by omega), hv.stateAt_small hw]

/-- The bits of a narrow value in the reverse order. -/
lemma Yields.reverseSmall {out : G4} {s : Bool} {f : ℕ → Bit} (h : Yields out w s f) (hpos : 0 < w)
    (hw : w ≤ 64) : Yields (out.reverseSmall w) w s fun i => f (w - 1 - i) := by
  obtain ⟨hcanonical, rfl, rfl, hstate⟩ := h
  refine ⟨reverseSmall_canonical hpos hw, rfl, rfl, fun i hi => ?_⟩
  rw [G4.reverseSmall, G4.putSmall, stateAt_singleton, getLsbD_g4ReverseWord_shift hpos hw,
    getLsbD_g4ReverseWord_shift hpos hw, decide_eq_true hi, Bool.true_and, Bool.true_and,
    ← hcanonical.stateAt_small hw, hstate _ (by omega)]

end Narrow

end Lapligence.Value
