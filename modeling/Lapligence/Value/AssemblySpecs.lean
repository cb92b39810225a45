import Lapligence.Value.Assembly
import Lapligence.Value.Windows

/-!
# The bits of assemblies

What the assemblies are for is said with lists of bits, the least significant first: a concatenation is the
list of its parts, the last part first; a replication repeats the list; and a stream splits the list into
slices, from the right end of the value on, and puts them in the reverse order.  `assemblies_contiguous` is
the result: on every width and alignment the words of the runtime hold these lists, and the narrow and the
wide paths agree.
-/

namespace Lapligence.Value

open WordLists Constraints Elab List Nat Function

/-! ## Lists of bits -/

/-- The bits of a value, the least significant first. -/
def G4.bits (v : G4) : List Bit := (range v.width).map v.stateAt

/-- A list in slices of `n` elements; the last one may be shorter. -/
def slices {α : Type} (n : ℕ) (l : List α) : List (List α) :=
  (range ((l.length + n - 1) / n)).map fun k => (l.drop (k * n)).take n

/-- The streaming operator: `<<` reverses the order of the slices, `>>` keeps it. -/
def streamed {α : Type} (n : ℕ) (reverse : Bool) (l : List α) : List α :=
  if reverse then (slices n l).reverse.flatten else l

section Lists

variable {α : Type} {n w : ℕ}

lemma Yields.bits_eq {out : G4} {s : Bool} {f : ℕ → Bit} (h : Yields out w s f) :
    out.bits = (range w).map f := by
  rw [G4.bits, h.width]
  exact map_congr_left fun i hi => h.stateAt i (mem_range.1 hi)

lemma slices_of_le {l : List α} (hl : l ≠ []) (hn : l.length ≤ n) : slices n l = [l] := by
  have hpos := length_pos_iff.2 hl
  have hone : (l.length + n - 1) / n = 1 := by
    rw [Nat.div_eq_iff (by omega)]
    omega
  rw [slices, hone]
  simp [take_of_length_le hn]

lemma slices_cons {l : List α} (hpos : 0 < n) (hn : n < l.length) :
    slices n l = l.take n :: slices n (l.drop n) := by
  have hcount : (l.length + n - 1) / n = ((l.drop n).length + n - 1) / n + 1 := by
    rw [length_drop, show l.length + n - 1 = l.length - n + n - 1 + n by omega, add_div_right _ hpos]
  rw [slices, hcount, range_succ_eq_map, map_cons, map_map, slices]
  refine congrArg₂ _ (by simp) (map_congr_left fun k _ => ?_)
  simp only [comp_apply, drop_drop]
  rw [show n + k * n = k.succ * n by rw [succ_mul, add_comm]]

end Lists

/-! ## The slices of a stream -/

section Slices

variable {w s j : ℕ}

lemma firstSlice_le (hw : 0 < w) : firstSlice w s ≤ w ∧ s ∣ w - firstSlice w s := by
  rw [firstSlice]
  split_ifs with hzero
  · have hdvd := dvd_of_mod_eq_zero hzero
    exact ⟨le_of_dvd hw hdvd, Nat.dvd_sub hdvd dvd_rfl⟩
  · exact ⟨mod_le .., dvd_sub_mod w⟩

/-- A stream of one slice is the value itself. -/
lemma streamSource_of_le (hw : w ≤ s) (hj : j < w) : streamSource w s j = j := by
  have hfirst : firstSlice w s = w := by
    rw [firstSlice]
    rcases hw.lt_or_eq with hlt | rfl
    · rw [mod_eq_of_lt hlt, if_neg (by omega)]
    · rw [mod_self, if_pos rfl]
  rw [streamSource, hfirst, if_pos hj]
  omega

lemma firstSlice_sub (hw : s ≤ w) : firstSlice (w - s) s = firstSlice w s := by
  rw [firstSlice, firstSlice, ← mod_eq_sub_mod hw]

/-- Behind the last slice of the result stands the stream of the rest. -/
lemma streamSource_low (hs : 0 < s) (hw : s < w) (hj : j < w - s) :
    streamSource w s j = s + streamSource (w - s) s j := by
  obtain ⟨hle, m, hm⟩ := firstSlice_le (show 0 < w - s by omega)
  rw [streamSource, streamSource]
  rw [firstSlice_sub hw.le] at hle hm ⊢
  by_cases hfirst : j < firstSlice w s
  · rw [if_pos hfirst, if_pos hfirst]
    omega
  · rw [if_neg hfirst, if_neg hfirst]
    have hq : (j - firstSlice w s) / s < m := Nat.div_lt_of_lt_mul (by omega)
    have hroom := Nat.mul_le_mul_left s (succ_le_of_lt hq)
    rw [mul_comm s (Nat.succ _), succ_eq_add_one] at hroom
    omega

/-- The last slice of the result is the lowest of the value. -/
lemma streamSource_high (hs : 0 < s) (hw : s < w) (hj : w - s ≤ j) (hlt : j < w) :
    streamSource w s j = j - (w - s) := by
  obtain ⟨hle, hdvd⟩ := firstSlice_le (show 0 < w - s by omega)
  rw [firstSlice_sub hw.le] at hle hdvd
  have hslice : Slice w s (w - s) s := ⟨by omega, .inr ⟨hle, hdvd, rfl⟩⟩
  rw [hslice.source hs hj (by omega)]
  omega

/-- The slices in the reverse order, by position. -/
lemma streamed_range {α : Type} (hs : 0 < s) (w : ℕ) (f : ℕ → α) :
    streamed s true ((range w).map f) = (range w).map fun j => f (streamSource w s j) := by
  rw [streamed, if_pos rfl]
  induction w using Nat.strong_induction_on generalizing f with
  | _ w ih =>
    rcases Nat.eq_zero_or_pos w with rfl | hpos
    · simp [slices, div_eq_of_lt (show s - 1 < s by omega)]
    rcases lt_or_ge s w with hw | hw
    · have hdrop : ((range w).map f).drop s = (range (w - s)).map fun i => f (s + i) := by
        rw [show w = s + (w - s) by omega, range_add, map_append, map_map,
          drop_left' (by simp), Nat.add_sub_cancel_left]
        rfl
      have htake : ((range w).map f).take s = (range s).map f := by
        rw [← map_take, take_range, Nat.min_eq_left hw.le]
      have hsplit : range w = range (w - s) ++ (range s).map (w - s + ·) := by
        rw [← range_add, Nat.sub_add_cancel hw.le]
      rw [slices_cons hs (by simpa using hw), hdrop, htake, reverse_cons, flatten_append,
        ih _ (by omega), hsplit, map_append, map_map]
      congr 1
      · exact map_congr_left fun j hj => by rw [streamSource_low hs hw (mem_range.1 hj)]
      · simp only [flatten_cons, flatten_nil, append_nil]
        refine map_congr_left fun j hj => ?_
        have hj := mem_range.1 hj
        rw [comp_apply, streamSource_high hs hw (by omega) (by omega), Nat.add_sub_cancel_left]
    · rw [slices_of_le (by simp; omega) (by simpa using hw)]
      simp only [reverse_singleton, flatten_cons, flatten_nil, append_nil]
      exact map_congr_left fun j hj => by rw [streamSource_of_le hw (mem_range.1 hj)]

end Slices

/-! ## New values with filled planes -/

section Build

variable {w : ℕ}

lemma llgGmpSv4New_pos (hw : 0 < w) (s withB : Bool) :
    llgGmpSv4New w s withB = ⟨w, s, replicate (g4Words w) 0,
      if w ≤ 64 ∨ withB = true then some (replicate (g4Words w) 0) else none⟩ := by
  rcases lt_or_ge 64 w with hwide | hnarrow
  · have hplane : (w ≤ 64 ∨ withB = true) ↔ withB = true := or_iff_right (by omega)
    simp only [llgGmpSv4New_wide hwide, hplane]
  · have hone : g4Words w = 1 := by
      rw [g4Words]
      omega
    rw [llgGmpSv4New, if_neg (by omega), if_pos (.inl hnarrow), hone]
    rfl

/-- A new value whose planes are filled with the bits `p` and `q`. -/
lemma yields_assembled (hw : 0 < w) {unknown : Bool} {f g : Words → Words} (p q : ℕ → Bool)
    (hlenF : ∀ ws, (f ws).length = ws.length) (hlenG : ∀ ws, (g ws).length = ws.length)
    (hF : ∀ i, (wordsNat (f (replicate (g4Words w) 0))).testBit i = (decide (i < w) && p i))
    (hG : ∀ i, (wordsNat (g (replicate (g4Words w) 0))).testBit i = (decide (i < w) && q i))
    (hunknown : unknown = true ↔ ∃ i < w, q i = true) :
    Yields ⟨w, false, f (replicate (g4Words w) 0),
      (if w ≤ 64 ∨ unknown = true then some (replicate (g4Words w) 0) else none).map g⟩ w false
      fun i => stateBit (p i) (q i) := by
  refine ⟨?_, rfl, rfl, fun i hi => ?_⟩
  · rcases lt_or_ge 64 w with hwide | hnarrow
    · have hplane : (w ≤ 64 ∨ unknown = true) ↔ unknown = true := or_iff_right (by omega)
      simp only [hplane]
      refine canonical_of_planes hwide false ((hlenF _).trans length_replicate) (fun ws hws => ?_) hF
        (fun ws hws => ?_) (q := q) ?_ <;> cases unknown
      · cases hws
      · cases hws
        exact (hlenG _).trans length_replicate
      · cases hws
      · cases hws
        exact hG
      · exact hunknown
      · exact hunknown
    · have hone : g4Words w = 1 := by
        rw [g4Words]
        omega
      have hword : ∀ {h : Words → Words} {r : ℕ → Bool}, (∀ ws, (h ws).length = ws.length) →
          (∀ i, (wordsNat (h (replicate (g4Words w) 0))).testBit i = (decide (i < w) && r i)) →
          ∃ x, h (replicate (g4Words w) 0) = [x] ∧ Below w x := by
        intro h r hlen hbits
        obtain ⟨x, hx⟩ : ∃ x, h (replicate (g4Words w) 0) = [x] := by
          rw [← length_eq_one_iff, hlen, length_replicate, hone]
        refine ⟨x, hx, fun k hk => ?_⟩
        have := hbits k
        rw [hx, decide_eq_false (by omega), Bool.false_and] at this
        simpa [BitVec.testBit_toNat] using this
      obtain ⟨x, hx, hbelowX⟩ := hword hlenF hF
      obtain ⟨y, hy, hbelowY⟩ := hword hlenG hG
      rw [if_pos (.inl hnarrow), Option.map_some, hx, hy]
      exact canonical_of_below hnarrow false hbelowX hbelowY
  · rw [G4.stateAt, G4.aNat, hF, decide_eq_true hi, Bool.true_and]
    congr 1
    by_cases hplane : w ≤ 64 ∨ unknown = true
    · simp only [G4.bNat, if_pos hplane, Option.map_some, Option.getD_some, hG, decide_eq_true hi, Bool.true_and]
    · simp only [G4.bNat, if_neg hplane, Option.map_none, Option.getD_none, zero_testBit]
      rw [not_or] at hplane
      exact (Bool.eq_false_iff.2 fun hq => hplane.2 (hunknown.2 ⟨i, hi, hq⟩)).symm

end Build

/-! ## Streams -/

section Stream

variable {v : G4} {slice : ℕ}

/-- The position that a bit of a stream comes from, in either direction. -/
def sourceOf (w slice : ℕ) (reverse : Bool) (j : ℕ) : ℕ := if reverse then streamSource w slice j else j

lemma streamed_bits (hs : 0 < slice) (reverse : Bool) (v : G4) :
    streamed slice reverse v.bits =
      (range v.width).map fun j => v.stateAt (sourceOf v.width slice reverse j) := by
  cases reverse with
  | false => rfl
  | true => exact streamed_range hs v.width v.stateAt

/-- Without a reversal, or with one slice, the value is returned as it is. -/
lemma yields_plain (h : v.Canonical) {reverse : Bool} (hplain : reverse = false ∨ slice ≥ v.width) :
    Yields { v with isSigned := false } v.width false
      fun j => v.stateAt (sourceOf v.width slice reverse j) := by
  refine ⟨h.withSign false, rfl, rfl, fun j hj => ?_⟩
  have hsource : sourceOf v.width slice reverse j = j := by
    rw [sourceOf]
    split_ifs with hreverse
    · exact streamSource_of_le (hplain.resolve_left (by simp [hreverse])) hj
    · rfl
  rw [hsource]
  rfl

/-- `g4_stream`, on any width. -/
lemma yields_g4Stream (h : v.Canonical) (hs : 0 < slice) (reverse : Bool) :
    ∃ out, g4Stream v slice reverse = some out ∧
      Yields out v.width false fun j => v.stateAt (sourceOf v.width slice reverse j) := by
  rw [g4Stream, if_neg (by omega)]
  by_cases hplain : reverse = false ∨ v.width = 0 ∨ slice ≥ v.width
  · rw [if_pos hplain]
    refine ⟨_, rfl, yields_plain h (hplain.imp_right fun hw => ?_)⟩
    omega
  obtain ⟨hreverse, hpos, hlt⟩ : reverse = true ∧ 0 < v.width ∧ slice < v.width := by
    rw [not_or, not_or] at hplain
    exact ⟨by simpa using hplain.1, by omega, by omega⟩
  have hsource : ∀ j, sourceOf v.width slice reverse j = streamSource v.width slice j :=
    fun j => if_pos hreverse
  have hunknown := h.isUnknown_iff_source fun i hi => exists_streamSource hs hlt hi
  simp only [if_neg hplain, hsource, llgGmpSv4New_pos hpos]
  by_cases hone : slice = 1
  · -- single bits are reversed
    subst hone
    have hreversed : ∀ j < v.width, streamSource v.width 1 j = v.width - 1 - j := by
      intro j hj
      have hfirst : firstSlice v.width 1 = 1 := by rw [firstSlice, mod_one, if_pos rfl]
      rw [streamSource, hfirst]
      split_ifs
      · omega
      · rw [Nat.div_one, mod_one]
        omega
    rw [if_pos rfl, g4CopyReverse_eq (isSome_or_known h _ .inr)]
    refine ⟨_, rfl, (yields_assembled hpos (fun i => v.aNat.testBit (v.width - 1 - i))
      (fun i => v.bNat.testBit (v.width - 1 - i)) (fun ws => length_copyReversePlane ..)
      (fun ws => length_copyReversePlane ..) (testBit_copyReverse_all v.a) (fun i => ?_)
      (h.isUnknown_iff_source fun i hi => ⟨v.width - 1 - i, by omega, by omega⟩)).congr fun j hj => ?_⟩
    · rw [testBit_copyReverse_all, bNat_eq_wordsNat]
    · rw [hreversed j hj, G4.stateAt]
  · rw [if_neg hone]
    have hbits : ∀ (plane : Words) (i : ℕ), (wordsNat (streamPlane plane v.width slice v.width 0
        (firstCursor v.width slice) (replicate (g4Words v.width) 0))).testBit i =
          (decide (i < v.width) && (wordsNat plane).testBit (streamSource v.width slice i)) := by
      intro plane i
      refine testBit_streamPlane hs hlt plane (by omega) (fun _ => rfl) (fun _ => firstCursor_reads hs hlt) ?_
        (fun j => ?_) i
      · rw [length_replicate, g4Words]
        omega
      · rw [testBit_replicate_zero, Nat.zero_min]
        simp
    refine ⟨_, rfl, yields_assembled hpos
      (fun i => v.aNat.testBit (streamSource v.width slice i))
      (fun i => v.bNat.testBit (streamSource v.width slice i))
      (fun ws => length_streamPlane ..) (fun ws => length_streamPlane ..) (hbits v.a) (fun i => ?_) hunknown⟩
    rw [hbits, bNat_eq_wordsNat]

/-- The loop of the narrow stream. -/
lemma getLsbD_streamWord (hs : 0 < slice) {w : ℕ} (hw : w ≤ 64) (word : BitVec 64) {fuel bit : ℕ}
    {out : BitVec 64} (hfuel : w - bit ≤ fuel) (k : ℕ) :
    (streamWord word w slice fuel bit out).getLsbD k =
      (out.getLsbD k || (decide (k < w - bit) && word.getLsbD (bit + streamSource (w - bit) slice k))) := by
  induction fuel generalizing bit out with
  | zero => rw [streamWord, decide_eq_false (by omega), Bool.false_and, Bool.or_false]
  | succ fuel ih =>
    rw [streamWord]
    by_cases hlt : bit < w
    · rw [if_pos hlt]
      simp only
      generalize hcount : (if w - bit < slice then w - bit else slice) = count
      have hle : 0 < count ∧ count ≤ w - bit := by
        rw [← hcount]
        split_ifs <;> omega
      have hmoved : ∀ k, (((word >>> bit) &&& g4Mask count) <<< (w - bit - count)).getLsbD k =
          (decide (w - bit - count ≤ k ∧ k < w - bit) && word.getLsbD (bit + (k - (w - bit - count)))) := by
        intro k
        rw [BitVec.getLsbD_shiftLeft, BitVec.getLsbD_and, BitVec.getLsbD_ushiftRight, getLsbD_g4Mask]
        by_cases hin : w - bit - count ≤ k ∧ k < w - bit
        · rw [decide_eq_true hin, decide_eq_true (show k < 64 by omega),
            decide_eq_false (show ¬k < w - bit - count by omega), decide_eq_true (by omega)]
          simp
        · rw [decide_eq_false hin]
          by_cases hlow : k < w - bit - count
          · simp [hlow]
          · rw [decide_eq_false (show ¬(k - (w - bit - count) < count ∧ _) by omega)]
            simp
      rw [ih (by omega), BitVec.getLsbD_or, hmoved, Bool.or_assoc]
      congr 1
      rcases lt_or_ge slice (w - bit) with hmore | hlast
      · obtain rfl : count = slice := by
          rw [← hcount, if_neg (by omega)]
        by_cases hlow : k < w - bit - count
        · rw [decide_eq_false (by omega), decide_eq_true (show k < w - (bit + count) by omega),
            decide_eq_true (show k < w - bit by omega), streamSource_low hs hmore hlow, sub_add_eq,
            add_assoc]
          rfl
        · rw [decide_eq_false (show ¬k < w - (bit + count) by omega), Bool.false_and, Bool.or_false]
          by_cases hhigh : k < w - bit
          · rw [decide_eq_true (by omega), decide_eq_true hhigh, streamSource_high hs hmore (by omega) hhigh]
          · rw [decide_eq_false (by omega), decide_eq_false hhigh, Bool.false_and, Bool.false_and]
      · obtain rfl : count = w - bit := by
          rw [← hcount]
          split_ifs <;> omega
        rw [decide_eq_false (show ¬k < w - (bit + (w - bit)) by omega), Bool.false_and, Bool.or_false]
        by_cases hk : k < w - bit
        · rw [decide_eq_true (by omega), decide_eq_true hk, streamSource_of_le hlast hk, Nat.sub_self, Nat.sub_zero]
        · rw [decide_eq_false (by omega), decide_eq_false hk, Bool.false_and, Bool.false_and]
    · rw [if_neg hlt, decide_eq_false (by omega), Bool.false_and, Bool.or_false]

/-- `g4_selection_small_stream`. -/
lemma yields_g4SelectionSmallStream (h : v.Canonical) (hw : v.width ≤ 64) (hs : 0 < slice) (reverse : Bool) :
    ∃ out, g4SelectionSmallStream v slice reverse = some out ∧
      Yields out v.width false fun j => v.stateAt (sourceOf v.width slice reverse j) := by
  rw [g4SelectionSmallStream, if_neg (by omega)]
  by_cases hplain : reverse = false ∨ slice ≥ v.width
  · rw [if_pos hplain]
    exact ⟨_, rfl, yields_plain h hplain⟩
  rw [not_or] at hplain
  have hsource : ∀ j, sourceOf v.width slice reverse j = streamSource v.width slice j :=
    fun j => if_pos (by simpa using hplain.1)
  have hword : ∀ (word : BitVec 64) (k : ℕ), k < v.width →
      (streamWord word v.width slice v.width 0 0).getLsbD k =
        word.getLsbD (streamSource v.width slice k) := fun word k hk => by
    rw [getLsbD_streamWord hs hw word (by omega), Nat.sub_zero, decide_eq_true hk, zero_add]
    simp
  have hzero : (g4Small 0 0 v.width false).smallA = 0 ∧ (g4Small 0 0 v.width false).smallB = 0 := by
    simp [g4Small, G4.smallA, G4.smallB]
  simp only [if_neg (not_or.2 hplain), hsource, hzero.1, hzero.2]
  refine ⟨_, rfl, canonical_of_below hw false (below_streamWord _ _ (below_zero _))
    (below_streamWord _ _ (below_zero _)),
    rfl, rfl, fun j hj => ?_⟩
  rw [G4.putSmall, stateAt_singleton, hword _ _ hj, hword _ _ hj, h.stateAt_small hw]

end Stream

/-! ## Concatenation -/

section Concat

variable {hi lo pattern : G4}

lemma yields_llgGmpSv4ConcatWide (hhi : hi.Canonical) (hlo : lo.Canonical) {w : ℕ}
    (hw : w = hi.width + lo.width) (hwide : 64 < w) :
    Yields (llgGmpSv4ConcatWide hi lo w) w false fun i =>
      stateBit (concatBit hi.aNat lo.aNat lo.width i) (concatBit hi.bNat lo.bNat lo.width i) := by
  have hunknown := exists_concatBit hhi hlo hw
  have hlow : llgGmpSv4IsUnknown lo = true →
      w ≤ 64 ∨ (llgGmpSv4IsUnknown hi || llgGmpSv4IsUnknown lo) = true :=
    fun h => .inr (by rw [h, Bool.or_true])
  have hhigh : llgGmpSv4IsUnknown hi = true →
      w ≤ 64 ∨ (llgGmpSv4IsUnknown hi || llgGmpSv4IsUnknown lo) = true :=
    fun h => .inr (by rw [h, Bool.true_or])
  simp only [llgGmpSv4ConcatWide, llgGmpSv4New_pos (show 0 < w by omega)]
  by_cases hnarrow : hi.width ≤ 64 ∧ lo.width ≤ 64
  · rw [if_pos ⟨hwide, hnarrow⟩]
    obtain ⟨hhi64, hlo64⟩ := hnarrow
    have htwo : (replicate (g4Words w) (0 : BitVec 64)).length = 2 := by
      rw [length_replicate, g4Words]
      omega
    have hlen : ∀ (x y : BitVec 64) (ws : Words), (concatWords ws x y lo.width).length = ws.length := by
      intro x y ws
      rw [concatWords, length_set, length_set]
    refine yields_assembled (by omega) (f := fun ws => concatWords ws hi.smallA lo.smallA lo.width)
      (g := fun ws => concatWords ws hi.smallB lo.smallB lo.width) (concatBit hi.aNat lo.aNat lo.width)
      (concatBit hi.bNat lo.bNat lo.width) (hlen _ _) (hlen _ _) (fun i => ?_) (fun i => ?_) hunknown
    · rw [← concatBit_of_ge hhi.aNat_lt hw, ← hhi.toNat_smallA hhi64, ← hlo.toNat_smallA hlo64]
      exact testBit_concatWords htwo (hhi.below_smallA hhi64).toNat_lt (hlo.below_smallA hlo64).toNat_lt
        hhi64 hlo64 i
    · rw [← concatBit_of_ge hhi.bNat_lt hw, ← hhi.toNat_smallB hhi64, ← hlo.toNat_smallB hlo64]
      exact testBit_concatWords htwo (hhi.below_smallB hhi64).toNat_lt (hlo.below_smallB hlo64).toNat_lt
        hhi64 hlo64 i
  · have hcopyLo := isSome_or_known hlo (replicate (g4Words w) 0) hlow
    have hcopyHi := isSome_or_known hhi (replicate (g4Words w) 0) hhigh
    rw [if_neg fun h => hnarrow h.2, g4CopyBits_eq (d := ⟨w, false, replicate (g4Words w) 0,
        if w ≤ 64 ∨ (llgGmpSv4IsUnknown hi || llgGmpSv4IsUnknown lo) = true then
          some (replicate (g4Words w) 0) else none⟩) hcopyLo,
      g4CopyBits_eq (by rwa [Option.isSome_map])]
    simp only [Option.map_map]
    refine yields_assembled (by omega) (f := fun ws => copyPlane (some hi.a) hi.width
        (copyPlane (some lo.a) lo.width ws 0 0 lo.width) lo.width 0 hi.width)
      (concatBit hi.aNat lo.aNat lo.width) (concatBit hi.bNat lo.bNat lo.width) (fun ws => ?_) (fun ws => ?_)
      (testBit_copyPlane_concat hhi.aNat_lt hw) (fun i => ?_) hunknown
    · rw [length_copyPlane, length_copyPlane]
    · rw [comp_apply, length_copyPlane, length_copyPlane]
    · rw [comp_apply, testBit_copyPlane_concat (bNat_eq_wordsNat hi ▸ hhi.bNat_lt) hw,
        ← bNat_eq_wordsNat, ← bNat_eq_wordsNat]

/-- `llg_gmp_sv4_concat`: the low part is below the high one. -/
lemma yields_llgGmpSv4Concat (hhi : hi.Canonical) (hlo : lo.Canonical)
    (hwidth : hi.width + lo.width < llgGmpSupportedWidthLimit) :
    ∃ out, llgGmpSv4Concat hi lo = some out ∧ Yields out (hi.width + lo.width) false fun i =>
      if i < lo.width then lo.stateAt i else hi.stateAt (i - lo.width) := by
  have hbit : ∀ i, (if i < lo.width then lo.stateAt i else hi.stateAt (i - lo.width)) =
      stateBit (concatBit hi.aNat lo.aNat lo.width i) (concatBit hi.bNat lo.bNat lo.width i) := by
    intro i
    rw [concatBit, concatBit]
    split_ifs <;> rfl
  simp only [hbit]
  generalize hw : hi.width + lo.width = w at hwidth
  rw [llgGmpSv4Concat, g4SelectionWidth, hw, if_neg (by omega)]
  simp only [Option.bind_eq_bind, Option.bind_some]
  by_cases hwide : w > 64
  · rw [if_pos hwide]
    exact ⟨_, rfl, yields_llgGmpSv4ConcatWide hhi hlo hw.symm hwide⟩
  · rw [if_neg hwide]
    refine ⟨_, rfl, yields_g4Small (by omega) fun i hlt => ?_⟩
    have hword : ∀ x y : BitVec 64, Below lo.width y → Below hi.width x →
        (y ||| if hi.width ≠ 0 then x <<< lo.width else 0).getLsbD i =
          concatBit x.toNat y.toNat lo.width i := by
      intro x y hy hx
      rw [concatBit, BitVec.testBit_toNat, BitVec.testBit_toNat, BitVec.getLsbD_or]
      by_cases hlow : i < lo.width
      · rw [if_pos hlow]
        split_ifs <;> simp [hlow]
      · rw [if_neg hlow, hy i (by omega), if_pos (by omega), BitVec.getLsbD_shiftLeft]
        simp [hlow, show i < 64 by omega]
    rw [hword _ _ (hlo.below_smallA (by omega)) (hhi.below_smallA (by omega)),
      hword _ _ (hlo.below_smallB (by omega)) (hhi.below_smallB (by omega)), hhi.toNat_smallA (by omega),
      hlo.toNat_smallA (by omega), hhi.toNat_smallB (by omega), hlo.toNat_smallB (by omega)]

end Concat

/-! ## Replication -/

section Repeat

variable {pattern : G4} {width count : ℕ}

lemma yields_llgGmpSv4RepeatWide (h : pattern.Canonical) (hwidth : width = pattern.width * count)
    (hwide : 64 < width) :
    Yields (llgGmpSv4RepeatWide pattern width) width false fun i => pattern.stateAt (i % pattern.width) := by
  have hpos : 0 < pattern.width := pos_of_ne_zero fun hzero => by
    rw [hzero, zero_mul] at hwidth
    omega
  have hdvd : pattern.width ∣ width := ⟨count, hwidth⟩
  have hle : pattern.width ≤ width := le_of_dvd (by omega) hdvd
  have hunknown : llgGmpSv4IsUnknown pattern = true ↔
      ∃ i < width, pattern.bNat.testBit (i % pattern.width) = true := by
    rw [h.isUnknown_iff_testBit]
    constructor
    · rintro ⟨i, hi, hbit⟩
      exact ⟨i, hi.trans_le hle, by rwa [mod_eq_of_lt hi]⟩
    · rintro ⟨i, -, hbit⟩
      exact ⟨i % pattern.width, mod_lt _ hpos, hbit⟩
  have hne : width ≠ 0 := by omega
  simp only [llgGmpSv4RepeatWide, llgGmpSv4New_pos (show 0 < width by omega), ne_eq, hne, not_false_eq_true,
    true_and, if_true, Bool.decide_eq_true]
  rw [g4CopyBits_eq (isSome_or_known h _ .inr)]
  simp only [Option.map_map]
  refine yields_assembled (by omega) (f := fun ws => repeatPlane width width
      (copyPlane (some pattern.a) pattern.width ws 0 0 pattern.width) pattern.width)
    (fun i => pattern.aNat.testBit (i % pattern.width)) (fun i => pattern.bNat.testBit (i % pattern.width))
    (fun ws => ?_) (fun ws => ?_) (testBit_repeat_copy hpos hdvd hle) (fun i => ?_) hunknown
  · rw [length_repeatPlane, length_copyPlane]
  · rw [comp_apply, length_repeatPlane, length_copyPlane]
  · rw [comp_apply, testBit_repeat_copy hpos hdvd hle, ← bNat_eq_wordsNat]

/-- The loop of the narrow replication. -/
lemma getLsbD_repeatWord {period : ℕ} {bits : ℕ → Bool} (hperiod : period ∣ width) (hw : width ≤ 64)
    {fuel copied : ℕ} {word : BitVec 64} (hfuel : width - copied ≤ fuel) (hpos : 0 < copied)
    (hcopied : copied ≤ width) (hdvd : period ∣ copied)
    (hword : ∀ i, word.getLsbD i = (decide (i < copied) && bits (i % period))) (i : ℕ) :
    (repeatWord width fuel word copied).getLsbD i = (decide (i < width) && bits (i % period)) := by
  induction fuel generalizing word copied with
  | zero =>
    have heq : copied = width := by omega
    rw [repeatWord, hword, heq]
  | succ fuel ih =>
    rw [repeatWord]
    by_cases hlt : copied < width
    · rw [if_pos hlt]
      simp only
      generalize htake : (if width - copied < copied then width - copied else copied) = take
      have hcases : take = copied ∧ copied + take ≤ width ∨ copied + take = width := by
        rw [← htake]
        split_ifs <;> omega
      have hle : 0 < take ∧ take ≤ copied := by
        rw [← htake]
        split_ifs <;> omega
      refine ih (by omega) (by omega) (by omega) ?_ fun j => ?_
      · rcases hcases with ⟨heq, -⟩ | heq
        · rw [heq]
          exact dvd_add hdvd hdvd
        · rw [heq]
          exact hperiod
      · rw [← repeated_step hdvd hle.2 hword j, BitVec.getLsbD_or, BitVec.getLsbD_shiftLeft, BitVec.getLsbD_and,
          getLsbD_g4Mask]
        by_cases hnew : copied ≤ j ∧ j < copied + take
        · -- the word has no bit at the new positions yet
          rw [if_pos hnew, hword j, decide_eq_false (show ¬j < copied by omega),
            decide_eq_true (show j < 64 by omega), decide_eq_true (show _ ∧ _ by omega)]
          simp
        · rw [if_neg hnew]
          by_cases hlow : j < copied
          · simp [hlow]
          · rw [decide_eq_false (show ¬(j - copied < take ∧ _) by omega)]
            simp
    · have heq : copied = width := by omega
      rw [if_neg hlt, hword, heq]

/-- `llg_gmp_sv4_repeat`. -/
lemma yields_llgGmpSv4Repeat (h : pattern.Canonical)
    (hwidth : pattern.width * count < llgGmpSupportedWidthLimit) :
    ∃ out, llgGmpSv4Repeat pattern count = some out ∧
      Yields out (pattern.width * count) false fun i => pattern.stateAt (i % pattern.width) := by
  have hcount : ¬(pattern.width ≠ 0 ∧ count > (2 ^ 64 - 1) / pattern.width) := by
    rintro ⟨hne, hgt⟩
    rw [gt_iff_lt, Nat.div_lt_iff_lt_mul (by omega), mul_comm] at hgt
    rw [llgGmpSupportedWidthLimit] at hwidth
    omega
  generalize hw : pattern.width * count = width at hwidth
  rw [llgGmpSv4Repeat, if_neg hcount, g4SelectionWidth, hw, if_neg (by omega)]
  simp only [Option.bind_eq_bind, Option.bind_some]
  by_cases hwide : width > 64
  · rw [if_pos hwide]
    exact ⟨_, rfl, yields_llgGmpSv4RepeatWide h hw.symm hwide⟩
  rw [if_neg hwide]
  by_cases hzero : width = 0
  · rw [if_pos hzero, hzero]
    exact ⟨_, rfl, yields_g4Small (by decide) fun i hi => absurd hi (not_lt_zero i)⟩
  rw [if_neg hzero]
  have hpos : 0 < pattern.width := pos_of_ne_zero fun hwidth => hzero (by rw [← hw, hwidth, zero_mul])
  have hdvd : pattern.width ∣ width := ⟨count, hw.symm⟩
  have hle := le_of_dvd (by omega) hdvd
  have hbits : ∀ word : BitVec 64, Below pattern.width word → ∀ i < width,
      (repeatWord width width word pattern.width).getLsbD i = word.getLsbD (i % pattern.width) := by
    intro word hword i hi
    rw [getLsbD_repeatWord hdvd (by omega) (by omega) hpos hle dvd_rfl (fun j => ?_) i, decide_eq_true hi,
      Bool.true_and]
    by_cases hj : j < pattern.width
    · rw [decide_eq_true hj, Bool.true_and, mod_eq_of_lt hj]
    · rw [decide_eq_false hj, Bool.false_and, hword j (by omega)]
  refine ⟨_, rfl, yields_g4Small (by omega) fun i hi => ?_⟩
  rw [hbits _ (h.below_smallA (by omega)) i hi, hbits _ (h.below_smallB (by omega)) i hi,
    h.stateAt_small (by omega)]

end Repeat

/-! ## Canonical results -/

section Canonical

variable {v hi lo pattern : G4}

lemma llgGmpSv4Concat_canonical (hhi : hi.Canonical) (hlo : lo.Canonical) :
    ∀ out ∈ llgGmpSv4Concat hi lo, out.Canonical := by
  intro out hout
  rcases lt_or_ge (hi.width + lo.width) llgGmpSupportedWidthLimit with hwidth | hwidth
  · obtain ⟨out', hout', hyields⟩ := yields_llgGmpSv4Concat hhi hlo hwidth
    exact Option.some.inj (hout'.symm.trans hout) ▸ hyields.canonical
  · rw [llgGmpSv4Concat, g4SelectionWidth, if_pos hwidth] at hout
    cases hout

lemma llgGmpSv4Repeat_unsupported {count : ℕ} (hwidth : llgGmpSupportedWidthLimit ≤ pattern.width * count) :
    llgGmpSv4Repeat pattern count = none := by
  rw [llgGmpSv4Repeat, g4SelectionWidth, if_pos hwidth]
  split_ifs <;> rfl

lemma llgGmpSv4Repeat_canonical (h : pattern.Canonical) (count : ℕ) :
    ∀ out ∈ llgGmpSv4Repeat pattern count, out.Canonical := by
  intro out hout
  rcases lt_or_ge (pattern.width * count) llgGmpSupportedWidthLimit with hwidth | hwidth
  · obtain ⟨out', hout', hyields⟩ := yields_llgGmpSv4Repeat h hwidth
    exact Option.some.inj (hout'.symm.trans hout) ▸ hyields.canonical
  · rw [llgGmpSv4Repeat_unsupported hwidth] at hout
    cases hout

/-- `llg_gmp_sv4_stream`. -/
lemma yields_llgGmpSv4Stream (h : v.Canonical) {slice : ℕ} (hs : 0 < slice) (reverse : Bool) :
    ∃ out, llgGmpSv4Stream v slice reverse = some out ∧
      Yields out v.width false fun j => v.stateAt (sourceOf v.width slice reverse j) := by
  rw [llgGmpSv4Stream]
  split_ifs with hw
  · exact yields_g4SelectionSmallStream h hw hs reverse
  · exact yields_g4Stream h hs reverse

lemma stream_zero (v : G4) (reverse : Bool) :
    g4Stream v 0 reverse = none ∧ g4SelectionSmallStream v 0 reverse = none := ⟨rfl, rfl⟩

lemma llgGmpSv4Stream_canonical (h : v.Canonical) (slice : ℕ) (reverse : Bool) :
    ∀ out ∈ llgGmpSv4Stream v slice reverse, out.Canonical := by
  intro out hout
  rcases Nat.eq_zero_or_pos slice with rfl | hs
  · rw [llgGmpSv4Stream, (stream_zero v reverse).1, (stream_zero v reverse).2, ite_self] at hout
    cases hout
  · obtain ⟨out', hout', hyields⟩ := yields_llgGmpSv4Stream h hs reverse
    exact Option.some.inj (hout'.symm.trans hout) ▸ hyields.canonical

end Canonical

/-! ## Assemblies of lists -/

/-- A concatenation of parts, the most significant first, as the generated code nests the calls. -/
def concatParts (first : G4) (parts : List G4) : Option G4 := parts.foldlM llgGmpSv4Concat first

section Parts

variable {first pattern : G4} {parts : List G4}

/-- Two parts: the bits of the low part and then those of the high part. -/
lemma bits_llgGmpSv4Concat {hi lo : G4} (hhi : hi.Canonical) (hlo : lo.Canonical)
    (hwidth : hi.width + lo.width < llgGmpSupportedWidthLimit) :
    ∃ out, llgGmpSv4Concat hi lo = some out ∧ out.Canonical ∧ out.width = hi.width + lo.width ∧
      out.bits = lo.bits ++ hi.bits := by
  obtain ⟨out, hout, hyields⟩ := yields_llgGmpSv4Concat hhi hlo hwidth
  refine ⟨out, hout, hyields.canonical, hyields.width, ?_⟩
  rw [hyields.bits_eq, add_comm, range_add, map_append, map_map, G4.bits, G4.bits]
  congr 1
  · exact map_congr_left fun i hi => if_pos (mem_range.1 hi)
  · refine map_congr_left fun i _ => ?_
    rw [comp_apply, if_neg (by omega), Nat.add_sub_cancel_left]

/-- The parts are contiguous: below the first part stand the others. -/
lemma concatParts_spec (hfirst : first.Canonical) (hparts : ∀ p ∈ parts, p.Canonical)
    (hwidth : first.width + (parts.map G4.width).sum < llgGmpSupportedWidthLimit) :
    ∃ out, concatParts first parts = some out ∧ out.Canonical ∧
      out.width = first.width + (parts.map G4.width).sum ∧
      out.bits = ((first :: parts).reverse.map G4.bits).flatten := by
  induction parts generalizing first with
  | nil => exact ⟨first, rfl, hfirst, rfl, by simp⟩
  | cons p parts ih =>
    rw [map_cons, sum_cons] at hwidth
    obtain ⟨joined, hjoined, hcanonical, hjoinedWidth, hbits⟩ :=
      bits_llgGmpSv4Concat hfirst (hparts p mem_cons_self) (by omega)
    obtain ⟨out, hout, houtCanonical, houtWidth, houtBits⟩ := ih hcanonical
      (fun q hq => hparts q (mem_cons_of_mem p hq)) (by omega)
    refine ⟨out, ?_, houtCanonical, ?_, ?_⟩
    · rw [concatParts, foldlM_cons, hjoined]
      exact hout
    · rw [houtWidth, hjoinedWidth, map_cons, sum_cons, add_assoc]
    · rw [houtBits]
      simp [hbits]

/-- The pattern is repeated. -/
lemma bits_llgGmpSv4Repeat (h : pattern.Canonical) {count : ℕ}
    (hwidth : pattern.width * count < llgGmpSupportedWidthLimit) :
    ∃ out, llgGmpSv4Repeat pattern count = some out ∧ out.Canonical ∧ out.width = pattern.width * count ∧
      out.bits = (replicate count pattern.bits).flatten := by
  obtain ⟨out, hout, hyields⟩ := yields_llgGmpSv4Repeat h hwidth
  refine ⟨out, hout, hyields.canonical, hyields.width, ?_⟩
  rw [hyields.bits_eq]
  clear hyields hout hwidth
  induction count with
  | zero => rfl
  | succ count ih =>
    rw [mul_succ, range_add, map_append, ih, map_map, replicate_succ', flatten_append,
      flatten_singleton, G4.bits]
    congr 1
    refine map_congr_left fun i hi => ?_
    rw [comp_apply, mul_add_mod, mod_eq_of_lt (mem_range.1 hi)]

end Parts

/-- The streaming operator splits a value from the right into slices, of which the last may be shorter, and
reverses their order for `<<`; the wide path, which takes any width, and the narrow one do the same.
Concatenations and replications place the bits of their parts one behind the other, the first part at the
top. -/
theorem assemblies_contiguous :
    (∀ v : G4, v.Canonical → ∀ slice reverse, 0 < slice →
      (∃ out, g4Stream v slice reverse = some out ∧ out.Canonical ∧ out.width = v.width ∧
        out.bits = streamed slice reverse v.bits) ∧
      (v.width ≤ 64 → ∃ out, g4SelectionSmallStream v slice reverse = some out ∧ out.Canonical ∧
        out.width = v.width ∧ out.bits = streamed slice reverse v.bits)) ∧
    (∀ (first : G4) (parts : List G4), (∀ p ∈ first :: parts, p.Canonical) →
      first.width + (parts.map G4.width).sum < llgGmpSupportedWidthLimit →
      ∃ out, concatParts first parts = some out ∧ out.Canonical ∧
        out.width = first.width + (parts.map G4.width).sum ∧
        out.bits = ((first :: parts).reverse.map G4.bits).flatten) ∧
    ∀ (pattern : G4) (count : ℕ), pattern.Canonical →
      pattern.width * count < llgGmpSupportedWidthLimit →
      ∃ out, llgGmpSv4Repeat pattern count = some out ∧ out.Canonical ∧ out.width = pattern.width * count ∧
        out.bits = (replicate count pattern.bits).flatten := by
  refine ⟨fun v h slice reverse hs => ⟨?_, fun hw => ?_⟩, fun first parts h hwidth => ?_,
    fun pattern count h hwidth => bits_llgGmpSv4Repeat h hwidth⟩
  · obtain ⟨out, hout, hyields⟩ := yields_g4Stream h hs reverse
    exact ⟨out, hout, hyields.canonical, hyields.width, hyields.bits_eq.trans (streamed_bits hs reverse v).symm⟩
  · obtain ⟨out, hout, hyields⟩ := yields_g4SelectionSmallStream h hw hs reverse
    exact ⟨out, hout, hyields.canonical, hyields.width, hyields.bits_eq.trans (streamed_bits hs reverse v).symm⟩
  · exact concatParts_spec (h first mem_cons_self) (fun p hp => h p (mem_cons_of_mem first hp)) hwidth

/-- The value `10110` in slices of two bits, and behind a value of one bit. -/
theorem assemblies_contiguous_five :
    (∃ out, g4Stream (g4Small 22 0 5 false) 2 true = some out ∧
      out.bits = [.one, .one, .zero, .zero, .one]) ∧
    ∃ out, concatParts (g4Small 1 0 1 false) [g4Small 22 0 5 false] = some out ∧
      out.bits = [.zero, .one, .one, .zero, .one, .one] := by
  have hfive := g4Small_ok (show 5 ≤ 64 by decide) 22 0 false
  have hone := g4Small_ok (show 1 ≤ 64 by decide) 1 0 false
  obtain ⟨⟨out, hout, -, -, hbits⟩, -⟩ :=
    assemblies_contiguous.1 (g4Small 22 0 5 false) hfive 2 true (by decide)
  obtain ⟨joined, hjoined, -, -, hjoinedBits⟩ :=
    assemblies_contiguous.2.1 (g4Small 1 0 1 false) [g4Small 22 0 5 false]
      (by simpa using ⟨hone, hfive⟩) (by decide)
  exact ⟨⟨out, hout, hbits.trans (by decide +kernel)⟩, joined, hjoined, hjoinedBits.trans (by decide +kernel)⟩

end Lapligence.Value
