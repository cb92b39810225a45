import Mathlib.Algebra.Ring.Int.Defs
import Mathlib.Algebra.Ring.Nat
import Mathlib.Tactic.Common

/-!
# Four-state values

The packed values of the runtime (`sv4_t`, in the layout of the production backend): a width, a
signedness and two planes of bits.  A bit is 0, 1, X or Z as its pair in the planes `a` and `b` is 00,
10, 11 or 01.  The planes are bit vectors of the value's width, so the padding of the last word, which
the code keeps zero, does not exist here; `llgSv4Word` reads words as the code does.
-/

namespace Lapligence.Value

/-- A packed value. -/
structure Sv4 where
  width : ℕ
  signed : Bool
  a : BitVec width
  b : BitVec width
deriving DecidableEq, Repr

namespace Sv4

variable (v : Sv4)

/-- The plane `LLG_SV4_BITS`: the bits that are known to be one. -/
def bits : BitVec v.width :=
  v.a &&& ~~~v.b

/-- The integer that a value stands for, unknown bits counting as zero. -/
def toInt : ℤ :=
  if v.signed then v.bits.toInt else v.bits.toNat

end Sv4

/-- `sv4_is_unknown`. -/
def sv4IsUnknown (v : Sv4) : Bool :=
  v.b ≠ 0

/-- `llg_sv4_word` on the plane `LLG_SV4_BITS`; words past the end are zero. -/
def llgSv4Word (v : Sv4) (word : ℕ) : BitVec 64 :=
  (v.bits >>> (64 * word)).setWidth 64

/-- The planes that `llg_sv4_word` reads. -/
inductive Sv4Plane where
  | bits | x | z
deriving DecidableEq, Repr

/-- The bits of a plane. -/
def Sv4.plane (v : Sv4) : Sv4Plane → BitVec v.width
  | .bits => v.bits
  | .x => v.a &&& v.b
  | .z => ~~~v.a &&& v.b

/-- `llg_sv4_words`. -/
def llgSv4Words (v : Sv4) : ℕ :=
  (v.width + 63) / 64

/-- `llg_sv4_word` on any plane. -/
def llgSv4PlaneWord (v : Sv4) (word : ℕ) (plane : Sv4Plane) : BitVec 64 :=
  (v.plane plane >>> (64 * word)).setWidth 64

/-- `sv4_same`: the planes agree in every word of the longer value. -/
def sv4Same (a b : Sv4) : Bool :=
  (List.range (max (llgSv4Words a) (llgSv4Words b))).all fun i =>
    llgSv4PlaneWord a i .bits = llgSv4PlaneWord b i .bits ∧
    llgSv4PlaneWord a i .x = llgSv4PlaneWord b i .x ∧ llgSv4PlaneWord a i .z = llgSv4PlaneWord b i .z

/-- `g4_extend`, on a plane of any width: truncation, or extension with zeros or with the top bit. -/
def g4Extend {n : ℕ} (plane : BitVec n) (width : ℕ) (extend : Bool) : BitVec width :=
  if extend then plane.signExtend width else plane.setWidth width

/-- `g4_convert`. -/
def g4Convert (v : Sv4) (width : ℕ) (signed extend : Bool) : Sv4 :=
  ⟨width, signed, g4Extend v.a width extend, g4Extend v.b width extend⟩

/-- `sv4_resize`: widening extends by the new signedness. -/
def sv4Resize (v : Sv4) (width : ℕ) (signed : Bool) : Sv4 :=
  g4Convert v width signed signed

/-- `sv4_cast`: widening extends by the old signedness. -/
def sv4Cast (v : Sv4) (width : ℕ) (signed : Bool) : Sv4 :=
  g4Convert v width signed v.signed

/-- `sv4_to_two_state`. -/
def sv4ToTwoState (v : Sv4) : Sv4 :=
  ⟨v.width, v.signed, v.a &&& ~~~v.b, 0⟩

/-! ## Known values -/

section Known

variable {v : Sv4}

lemma bits_of_known (h : sv4IsUnknown v = false) : v.bits = v.a := by
  have hb : v.b = 0#v.width := by simpa [sv4IsUnknown] using h
  simp [Sv4.bits, hb]

/-- Extension keeps the integer modulo the new width. -/
lemma g4Extend_eq_ofInt {n : ℕ} (plane : BitVec n) (width : ℕ) (extend : Bool) :
    g4Extend plane width extend =
      BitVec.ofInt width (if extend then plane.toInt else plane.toNat) := by
  cases extend with
  | true => rfl
  | false =>
    apply BitVec.eq_of_toNat_eq
    simp [g4Extend]

lemma g4Convert_known (h : sv4IsUnknown v = false) (width : ℕ) (signed extend : Bool) :
    sv4IsUnknown (g4Convert v width signed extend) = false := by
  have hb : v.b = 0#v.width := by simpa [sv4IsUnknown] using h
  have hzero : g4Extend v.b width extend = (0 : BitVec width) := by
    rw [hb, g4Extend_eq_ofInt]
    cases extend <;> simp
  exact decide_eq_false (not_not.2 hzero)

/-- The integer of a converted value. -/
def wrapInt (width : ℕ) (signed : Bool) (n : ℤ) : ℤ :=
  if signed then n.bmod (2 ^ width) else n % 2 ^ width

/-- A cast keeps the integer modulo the new width. -/
lemma sv4Cast_toInt (h : sv4IsUnknown v = false) (width : ℕ) (signed : Bool) :
    (sv4Cast v width signed).toInt = wrapInt width signed v.toInt := by
  have hbits : (sv4Cast v width signed).bits = g4Extend v.a width v.signed :=
    bits_of_known (g4Convert_known h width signed v.signed)
  have hint : v.toInt = if v.signed then v.a.toInt else v.a.toNat := by
    rw [Sv4.toInt, bits_of_known h]
  rw [Sv4.toInt, hbits, g4Extend_eq_ofInt, ← hint, wrapInt]
  cases signed with
  | true =>
    change (BitVec.ofInt width v.toInt).toInt = v.toInt.bmod (2 ^ width)
    exact BitVec.toInt_ofInt ..
  | false =>
    change ((BitVec.ofInt width v.toInt).toNat : ℤ) = v.toInt % 2 ^ width
    have hpos : (0 : ℤ) ≤ v.toInt % 2 ^ width :=
      Int.emod_nonneg _ (Int.ne_of_gt (Int.pow_pos (by decide)))
    rw [BitVec.toNat_ofInt, Int.natCast_pow]
    exact Int.toNat_of_nonneg hpos

lemma sv4ToTwoState_of_known (h : sv4IsUnknown v = false) : sv4ToTwoState v = v := by
  have hb : v.b = 0#v.width := by simpa [sv4IsUnknown] using h
  obtain ⟨width, signed, a, b⟩ := v
  dsimp only at hb
  subst hb
  simp [sv4ToTwoState]

end Known

end Lapligence.Value
