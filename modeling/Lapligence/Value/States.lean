import Lapligence.Elab.ValueSpecs
import Lapligence.Value.Operations

/-!
# Compact values as vectors of bits

`G4.toValue` reads a compact value as a vector of the compiler.  `Yields out w s f` says that `out` is
canonical and that its bits are `f`, so that an operation is described by what it yields.  The lemmas of this
module say what the building blocks of the operations yield, and what bits of an extended operand the
operations read, from a word, from an extended array or from a span.
-/

namespace Lapligence.Value

open WordLists Constraints Elab Nat

/-! ## Bits -/

/-- The bit with the given bits in the planes. -/
def stateBit : Bool → Bool → Bit
  | false, false => .zero
  | true, false => .one
  | true, true => .x
  | false, true => .z

lemma stateBit_false (a : Bool) : stateBit a false = Bit.ofBool a := by cases a <;> rfl

lemma isUnknown_stateBit (a b : Bool) : (stateBit a b).isUnknown = b := by cases a <;> cases b <;> rfl

variable {a b s : Bool} {w : ℕ} {f : ℕ → Bit}

lemma stateBit_eq_one : stateBit a b = .one ↔ a = true ∧ b = false := by
  cases a <;> cases b <;> decide

lemma stateBit_eq_zero : stateBit a b = .zero ↔ a = false ∧ b = false := by
  cases a <;> cases b <;> decide

lemma stateBit_inj {a' b' : Bool} : stateBit a b = stateBit a' b' ↔ a = a' ∧ b = b' := by
  cases a <;> cases b <;> cases a' <;> cases b' <;> decide

/-- The bit of a value at a position. -/
def G4.stateAt (v : G4) (i : ℕ) : Bit := stateBit (v.aNat.testBit i) (v.bNat.testBit i)

/-- The vector that a value stands for. -/
def G4.toValue (v : G4) : Elab.Value := ofBits v.width v.isSigned v.stateAt

/-- `out` is a canonical value with the given bits. -/
structure Yields (out : G4) (w : ℕ) (s : Bool) (f : ℕ → Bit) : Prop where
  canonical : out.Canonical
  width : out.width = w
  isSigned : out.isSigned = s
  stateAt : ∀ i < w, out.stateAt i = f i

lemma Yields.toValue_eq {out : G4} (h : Yields out w s f) :
    out.toValue = ofBits w s f := by
  obtain ⟨-, rfl, rfl, hstate⟩ := h
  exact ofBits_congr hstate

lemma Yields.congr {out : G4} {g : ℕ → Bit} (h : Yields out w s f)
    (hfg : ∀ i < w, f i = g i) : Yields out w s g :=
  ⟨h.canonical, h.width, h.isSigned, fun i hi => (h.stateAt i hi).trans (hfg i hi)⟩

lemma G4.Canonical.yields {v : G4} (h : v.Canonical) : Yields v v.width v.isSigned v.stateAt :=
  ⟨h, rfl, rfl, fun _ _ => rfl⟩

/-- There is one value with given bits. -/
lemma Yields.unique {u v : G4} (hu : Yields u w s f) (hv : Yields v w s f) :
    u = v := by
  have hbits : ∀ i, u.aNat.testBit i = v.aNat.testBit i ∧ u.bNat.testBit i = v.bNat.testBit i := by
    intro i
    by_cases hi : i < w
    · exact stateBit_inj.1 ((hu.stateAt i hi).trans (hv.stateAt i hi).symm)
    · have hzero : ∀ {x : ℕ}, x < 2 ^ w → x.testBit i = false := fun hx =>
        testBit_beyond hx (Nat.not_lt.1 hi)
      rw [hzero (hu.width ▸ hu.canonical.aNat_lt), hzero (hv.width ▸ hv.canonical.aNat_lt),
        hzero (hu.width ▸ hu.canonical.bNat_lt), hzero (hv.width ▸ hv.canonical.bNat_lt)]
      exact ⟨rfl, rfl⟩
  exact hu.canonical.ext hv.canonical (hu.width.trans hv.width.symm) (hu.isSigned.trans hv.isSigned.symm)
    (eq_of_testBit_eq fun i => (hbits i).1) (eq_of_testBit_eq fun i => (hbits i).2)

lemma bNat_eq_wordsNat (v : G4) : v.bNat = wordsNat v.wordsB := by
  rw [G4.bNat, G4.wordsB]
  cases v.b <;> rfl

section Build

variable {w : ℕ} {s : Bool} {f : ℕ → Bit}

lemma yields_g4Small (hw : w ≤ 64) {a b : BitVec 64}
    (h : ∀ i < w, stateBit (a.getLsbD i) (b.getLsbD i) = f i) : Yields (g4Small a b w s) w s f := by
  obtain ⟨hcanonical, ha, hb⟩ := g4Small_canonical hw a b s
  refine ⟨hcanonical, rfl, rfl, fun i hi => ?_⟩
  rw [G4.stateAt, ha, hb, testBit_mod_two_pow, testBit_mod_two_pow, BitVec.testBit_toNat,
    BitVec.testBit_toNat]
  simpa [hi] using h i hi

lemma yields_llgGmpSv4Finish (hw : 64 < w) {a : Words} {b : Option Words} (ha : a.length = g4Words w)
    (hb : ∀ ws ∈ b, ws.length = g4Words w)
    (h : ∀ i < w, stateBit ((wordsNat a).testBit i) ((wordsNat (b.getD [])).testBit i) = f i) :
    Yields (llgGmpSv4Finish ⟨w, s, a, b⟩) w s f := by
  obtain ⟨hcanonical, hwidth, hsigned, haNat, hbNat⟩ := llgGmpSv4Finish_spec (v := ⟨w, s, a, b⟩) hw ha hb
  refine ⟨hcanonical, hwidth, hsigned, fun i hi => ?_⟩
  rw [G4.stateAt, haNat, hbNat, bNat_eq_wordsNat, testBit_mod_two_pow, testBit_mod_two_pow,
    decide_eq_true hi, Bool.true_and, Bool.true_and]
  exact h i hi

/-- A known wide value that holds a number. -/
lemma yields_of_holds (hw : 64 < w) {a : Words} {x : ℕ} (h : Holds w a x) :
    Yields ⟨w, s, a, none⟩ w s fun i => Bit.ofBool (x.testBit i) := by
  have haNat : G4.aNat ⟨w, s, a, none⟩ = x := h.value
  refine ⟨⟨?_, by simp, ?_⟩, rfl, rfl, fun i hi => ?_⟩
  · rw [haNat]
    exact h
  · simp [G4.bNat]
    omega
  · rw [G4.stateAt, haNat, ← stateBit_false]
    simp [G4.bNat]

/-- The last word is masked without the test for unknown bits. -/
lemma yields_maskTop (hw : 64 < w) {a : Words} (ha : a.length = g4Words w)
    (h : ∀ i < w, Bit.ofBool ((wordsNat a).testBit i) = f i) :
    Yields ⟨w, s, maskTop a w, none⟩ w s f := by
  refine (yields_of_holds hw (holds_maskTop (by omega) ha)).congr fun i hi => ?_
  rw [testBit_mod_two_pow, decide_eq_true hi, Bool.true_and, h i hi]

lemma yields_llgGmpSv4X (w : ℕ) (s : Bool) : Yields (llgGmpSv4X w s) w s fun _ => .x := by
  obtain ⟨hcanonical, hwidth, hsigned, haNat, hbNat⟩ := llgGmpSv4X_spec w s
  refine ⟨hcanonical, hwidth, hsigned, fun i hi => ?_⟩
  rw [G4.stateAt, haNat, hbNat, testBit_two_pow_sub_one, decide_eq_true hi]
  rfl

end Build

/-! ## Operands -/

section Operands

variable {v : G4} {w : ℕ} (s : Bool)

/-- The plane `a` of the extended value. -/
def G4.extA (v : G4) (w : ℕ) (s : Bool) : ℕ := extendNat w v.width s v.aNat

/-- The plane `b` of the extended value. -/
def G4.extB (v : G4) (w : ℕ) (s : Bool) : ℕ := extendNat w v.width s v.bNat

/-- Extension of a number, bit by bit. -/
lemma testBit_extendNat {source x i : ℕ} (hx : x < 2 ^ source) (hi : i < w) :
    (extendNat w source s x).testBit i =
      if i < source then x.testBit i else s && decide (source ≠ 0) && x.testBit (source - 1) := by
  rcases Nat.eq_zero_or_pos source with rfl | hpos
  · obtain rfl : x = 0 := by simpa using hx
    simp [extendNat_zero]
  · rw [extendNat_testBit hpos hx, decide_eq_true hi, Bool.true_and]
    simp [Nat.pos_iff_ne_zero.1 hpos]

/-- The bits of the extended value. -/
abbrev G4.extBits (v : G4) (s : Bool) : ℕ → Bit := extendBits v.width s v.stateAt

/-- The bits of an extended operand are those of the reference. -/
lemma stateBit_ext (h : v.Canonical) {i : ℕ} (hi : i < w) :
    stateBit ((v.extA w s).testBit i) ((v.extB w s).testBit i) = v.extBits s i := by
  rw [G4.extA, G4.extB, testBit_extendNat s h.aNat_lt hi, testBit_extendNat s h.bNat_lt hi,
    G4.extBits, extendBits]
  split_ifs with hlt hsign
  · rfl
  · simp [hsign, G4.stateAt]
  · have hzero : (s && decide (v.width ≠ 0)) = false := by simpa using hsign
    rw [hzero, Bool.false_and, Bool.false_and]
    rfl

lemma extB_eq_zero_iff (h : v.Canonical) (hw : v.width ≤ w) : v.extB w s = 0 ↔ v.bNat = 0 := by
  constructor
  · intro hzero
    apply eq_of_testBit_eq
    intro i
    rw [zero_testBit]
    by_cases hi : i < v.width
    · have hbit := testBit_extendNat s h.bNat_lt (show i < w by omega)
      rw [if_pos hi] at hbit
      rw [← hbit, ← G4.extB, hzero, zero_testBit]
    · exact testBit_beyond h.bNat_lt (Nat.not_lt.1 hi)
  · intro hzero
    rw [G4.extB, hzero, extendNat_zero]

/-- A known operand of the reference, bit by bit. -/
lemma extBits_known (h : v.Canonical) (hzero : v.bNat = 0) {i : ℕ} (hi : i < w) :
    v.extBits s i = Bit.ofBool ((v.extA w s).testBit i) := by
  rw [← stateBit_ext s h hi, G4.extB, hzero, extendNat_zero, zero_testBit, stateBit_false]

/-- The number of a known extended operand. -/
lemma num_extBits (h : v.Canonical) (hzero : v.bNat = 0) : num w (v.extBits s) = v.extA w s := by
  rw [num_congr fun i hi => extBits_known s h hzero hi, num_testBit]
  exact mod_eq_of_lt (extendNat_lt _ _ _ _)

lemma toValue_isUnknown (h : v.Canonical) : v.toValue.isUnknown = true ↔ v.bNat ≠ 0 := by
  rw [G4.toValue, isUnknown_ofBits]
  constructor
  · rintro ⟨i, -, hunknown⟩ hzero
    rw [G4.stateAt, hzero, isUnknown_stateBit, zero_testBit] at hunknown
    exact Bool.false_ne_true hunknown
  · intro hne
    obtain ⟨i, hi⟩ := exists_testBit_of_ne_zero hne
    refine ⟨i, ?_, by rw [G4.stateAt, isUnknown_stateBit, hi]⟩
    by_contra hge
    have hfalse := testBit_beyond h.bNat_lt (Nat.not_lt.1 hge)
    rw [hi] at hfalse
    simp at hfalse

/-! ### Narrow operands -/

lemma toNat_g4ExtendWord_smallA (h : v.Canonical) (hv : v.width ≤ 64) (hw : w ≤ 64) :
    (g4ExtendWord v.smallA v.width w s).toNat = v.extA w s := by
  rw [toNat_g4ExtendWord hv hw (by rw [h.toNat_smallA hv]; exact h.aNat_lt), h.toNat_smallA hv]
  rfl

lemma toNat_g4ExtendWord_smallB (h : v.Canonical) (hv : v.width ≤ 64) (hw : w ≤ 64) :
    (g4ExtendWord v.smallB v.width w s).toNat = v.extB w s := by
  rw [toNat_g4ExtendWord hv hw (by rw [h.toNat_smallB hv]; exact h.bNat_lt), h.toNat_smallB hv]
  rfl

/-! ### Arrays -/

/-- The extended plane `a`. -/
lemma holds_extA (h : v.Canonical) (hw : 0 < w) :
    Holds w (llgGmpSv4ExtendPlane w (some v.a) v.width s) (v.extA w s) :=
  holds_llgGmpSv4ExtendPlane hw h.holds_a s

/-- The extended plane `b`, also of a value without one. -/
lemma holds_extB (h : v.Canonical) (hw : 0 < w) :
    Holds w (llgGmpSv4ExtendPlane w v.b v.width s) (v.extB w s) := by
  cases hb : v.b with
  | some b => exact holds_llgGmpSv4ExtendPlane hw (h.holds_b b hb) s
  | none =>
    have hzero := G4.bNat_of_none hb
    have hplane : llgGmpSv4ExtendPlane w none v.width s = maskTop (List.replicate (g4Words w) 0) w := by
      have hkeep : ∀ x y : BitVec 64, x ||| (0 &&& y) = x := by simp
      simp only [llgGmpSv4ExtendPlane, Option.getD_none, List.getD_nil, ite_self, hkeep]
      rw [show (fun x : BitVec 64 => x) = id from rfl, List.modify_id, ite_self, List.map_const',
        List.length_range]
    have hmask := holds_maskTop hw
      (show (List.replicate (g4Words w) (0 : BitVec 64)).length = g4Words w by simp)
    rw [wordsNat_replicate_zero, zero_mod] at hmask
    rw [hplane, G4.extB, hzero, extendNat_zero]
    exact hmask

/-! ### Spans -/

/-- The words beyond a value are its sign. -/
lemma getLsbD_fill (words : Words) (width : ℕ) {k : ℕ} (hk : k < 64) :
    (spanPlane words width s).fill.getLsbD k =
      (s && decide (width ≠ 0) && (wordsNat words).testBit (width - 1)) := by
  have hn : g4Words width ≠ 0 ↔ width ≠ 0 := by
    rw [g4Words]
    omega
  have hlast : width ≠ 0 → g4Words width - 1 = (width - 1) / 64 := by
    rw [g4Words]
    omega
  have hiff : (s = true ∧ g4Words width ≠ 0 ∧
      (words.getD (g4Words width - 1) 0 >>> ((width - 1) % 64)) &&& 1#64 ≠ 0) ↔
      (s && decide (width ≠ 0) && (wordsNat words).testBit (width - 1)) = true := by
    rw [Bool.and_eq_true, Bool.and_eq_true, decide_eq_true_iff, and_assoc, hn]
    refine and_congr_right fun _ => and_congr_right fun hwidth => ?_
    rw [shift_and_one_ne_zero, hlast hwidth, ← testBit_wordsNat]
  simp only [spanPlane]
  by_cases hfill : (s && decide (width ≠ 0) && (wordsNat words).testBit (width - 1)) = true
  · rw [if_pos (hiff.2 hfill), hfill, BitVec.getLsbD_allOnes, decide_eq_true hk]
  · rw [if_neg (mt hiff.1 hfill), Bool.eq_false_iff.2 hfill]
    exact BitVec.getLsbD_zero

/-- A word of a span, bit by bit. -/
lemma getLsbD_word {words : Words} {width : ℕ} (hx : wordsNat words < 2 ^ width) (i : ℕ) {k : ℕ}
    (hk : k < 64) :
    ((spanPlane words width s).word i).getLsbD k =
      if 64 * i + k < width then (wordsNat words).testBit (64 * i + k)
      else s && decide (width ≠ 0) && (wordsNat words).testBit (width - 1) := by
  have hword : (words.getD i 0).getLsbD k = (wordsNat words).testBit (64 * i + k) := getLsbD_getD words hk rfl
  have hfill := getLsbD_fill s words width hk
  have hfull : (spanPlane words width s).full = width / 64 := rfl
  rw [SpanPlane.word, hfull, ← hfill]
  rcases lt_trichotomy i (width / 64) with hlt | heq | hgt
  · rw [if_pos hlt, if_pos (by omega)]
    exact hword
  · subst heq
    rw [if_neg (lt_irrefl _), if_pos rfl]
    have htail : (spanPlane words width s).tail = if width % 64 ≠ 0 then
        words.getD (width / 64) 0 ||| ((spanPlane words width s).fill &&& ~~~g4Topmask width)
      else (spanPlane words width s).fill := rfl
    rw [htail]
    by_cases htop : width % 64 = 0
    · rw [if_neg (not_not.2 htop), if_neg (by omega)]
    · rw [if_pos htop, BitVec.getLsbD_or, BitVec.getLsbD_and, BitVec.getLsbD_not, hword, g4Topmask,
        if_pos htop, getLsbD_g4Mask]
      by_cases hlow : k < width % 64
      · rw [if_pos (by omega)]
        simp [hlow, hk]
      · rw [if_neg (by omega), testBit_beyond hx (by omega : width ≤ 64 * (width / 64) + k)]
        simp [hlow, hk]
  · rw [if_neg (by omega), if_neg (by omega), if_neg (by omega)]

/-- The plane `a` of a span, bit by bit. -/
lemma getLsbD_spanA (h : v.Canonical) {i : ℕ} (hi : i < w) :
    ((v.spanA s).word (i / 64)).getLsbD (i % 64) = (v.extA w s).testBit i := by
  rw [G4.spanA, getLsbD_word s h.aNat_lt _ (mod_lt _ (by decide)), div_add_mod, G4.extA,
    testBit_extendNat s h.aNat_lt hi]
  rfl

/-- The plane `b` of a span, bit by bit. -/
lemma getLsbD_spanB (h : v.Canonical) {i : ℕ} (hi : i < w) :
    ((v.spanB s).word (i / 64)).getLsbD (i % 64) = (v.extB w s).testBit i := by
  have hlt : wordsNat v.wordsB < 2 ^ v.width := by
    rw [← bNat_eq_wordsNat]
    exact h.bNat_lt
  rw [G4.spanB, getLsbD_word s hlt _ (mod_lt _ (by decide)), div_add_mod, ← bNat_eq_wordsNat,
    G4.extB, testBit_extendNat s h.bNat_lt hi]

end Operands

end Lapligence.Value
