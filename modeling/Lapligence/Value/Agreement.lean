import Lapligence.Value.ShiftSpecs

/-!
# The runtime and the compiler agree

The compiler folds constants with the operations of `elab::Value` and the simulator executes those of the
compact values.  `operators_agree` compares all of them: for canonical operands, narrow or wide, with or
without unknown bits, an operator of the runtime returns a canonical value that stands for the vector that the
compiler computes.
-/

namespace Lapligence.Value

open Elab

/-! ## The operators -/

/-- `llg_gmp_sv4_neq`. -/
def llgGmpSv4Neq (a b : G4) : G4 := llgGmpSv4Lognot (g4Compare a b .eq)

/-- `llg_gmp_sv4_case_neq`. -/
def llgGmpSv4CaseNeq (a b : G4) : G4 := llgGmpSv4Lognot (g4Compare a b .caseEq)

/-- `llg_gmp_sv4_wild_neq`. -/
def llgGmpSv4WildNeq (a b : G4) : G4 := llgGmpSv4Lognot (g4Match a b .wild)

/-- The operators with one operand. -/
inductive UnaryOperator where
  | negate
  | bitNot
  | logNot
  | reduce (kind : ReduceKind) (invert : Bool)

/-- The operators with two operands. -/
inductive BinaryOperator where
  | binary (op : BinaryOp)
  | shift (right arithmetic : Bool)
  | compare (op : CompareOp)
  | neq | caseNeq | wildEq | wildNeq
  | logAnd | logOr | logImply | logEquiv

/-- What the simulator executes. -/
def UnaryOperator.run : UnaryOperator → G4 → G4
  | .negate => llgGmpSv4Neg
  | .bitNot => llgGmpSv4Bitneg
  | .logNot => llgGmpSv4Lognot
  | .reduce kind invert => (g4Reduce · kind invert)

/-- What the compiler folds. -/
def UnaryOperator.fold : UnaryOperator → Elab.Value → Elab.Value
  | .negate => minus
  | .bitNot => bitNeg
  | .logNot => Elab.logNot
  | .reduce .and false => unaryAnd
  | .reduce .or false => unaryOr
  | .reduce .xor false => unaryXor
  | .reduce .and true => unaryNand
  | .reduce .or true => unaryNor
  | .reduce .xor true => unaryXnor

/-- What the compiler folds for the codes of `g4_binary`. -/
def BinaryOp.fold : BinaryOp → Elab.Value → Elab.Value → Elab.Value
  | .add => Elab.add
  | .sub => Elab.sub
  | .mul => Elab.mul
  | .and => bitAnd
  | .or => bitOr
  | .xor => bitXor
  | .xnor => bitXnor

/-- What the compiler folds for the codes of `g4_compare`. -/
def CompareOp.fold : CompareOp → Elab.Value → Elab.Value → Elab.Value
  | .eq => Elab.eq
  | .caseEq => Elab.caseEq
  | .lt => Elab.lt
  | .le => Elab.le
  | .gt => Elab.gt
  | .ge => Elab.ge

/-- What the simulator executes. -/
def BinaryOperator.run : BinaryOperator → G4 → G4 → G4
  | .binary op => (g4Binary · · op)
  | .shift right arithmetic => (g4Shift · · right arithmetic)
  | .compare op => (g4Compare · · op)
  | .neq => llgGmpSv4Neq
  | .caseNeq => llgGmpSv4CaseNeq
  | .wildEq => (g4Match · · .wild)
  | .wildNeq => llgGmpSv4WildNeq
  | .logAnd => llgGmpSv4Logand
  | .logOr => llgGmpSv4Logor
  | .logImply => llgGmpSv4Logimpl
  | .logEquiv => llgGmpSv4Logequiv

/-- What the compiler folds. -/
def BinaryOperator.fold : BinaryOperator → Elab.Value → Elab.Value → Elab.Value
  | .binary op => op.fold
  | .shift false false => shl
  | .shift true false => shr
  | .shift false true => arithShl
  | .shift true true => arithShr
  | .compare op => op.fold
  | .neq => Elab.neq
  | .caseNeq => Elab.caseNeq
  | .wildEq => wildcardEq
  | .wildNeq => wildcardNeq
  | .logAnd => Elab.logAnd
  | .logOr => Elab.logOr
  | .logImply => Elab.logImply
  | .logEquiv => Elab.logEquiv

/-- `out` is a canonical value that stands for `v`. -/
def Represents (out : G4) (v : Elab.Value) : Prop := out.Canonical ∧ out.toValue = v

lemma Yields.represents {out : G4} {w : ℕ} {s : Bool} {f : ℕ → Bit} {v : Elab.Value} (h : Yields out w s f)
    (hv : v = ofBits w s f) : Represents out v :=
  ⟨h.canonical, h.toValue_eq.trans hv.symm⟩

/-! ## Operators with one operand -/

section Agreement

variable {sel a b dst : G4}

lemma unary_represents (ha : a.Canonical) (op : UnaryOperator) :
    Represents (op.run a) (op.fold a.toValue) := by
  cases op with
  | negate =>
    refine (llgGmpSv4Neg_yields ha).represents ?_
    rw [UnaryOperator.fold, minus]
    simp only [toValue_isUnknown ha]
    rw [G4.toValue, allX_eq, negateKnown_ofBits, width_ofBits, signed_ofBits]
    split_ifs <;> rfl
  | bitNot => exact (llgGmpSv4Bitneg_yields ha).represents bitNeg_ofBits
  | logNot => exact (llgGmpSv4Lognot_yields ha).represents (logNot_eq _)
  | reduce kind invert =>
    have hyields := g4Reduce_yields ha kind invert
    have hbase : ∀ k : ReduceKind, UnaryOperator.fold (.reduce k false) a.toValue =
        bitValue (reduceBit k a.width a.stateAt) := by
      intro k
      cases k with
      | and => exact unaryAnd_ofBits
      | or => exact unaryOr_ofBits.trans (congrArg bitValue logicalBit_ofBits)
      | xor => exact unaryXor_ofBits
    cases invert with
    | false => exact hyields.represents (hbase kind)
    | true =>
      refine hyields.represents ?_
      have hinvert : UnaryOperator.fold (.reduce kind true) a.toValue =
          invertUnlessUnknown (UnaryOperator.fold (.reduce kind false) a.toValue) := by
        cases kind <;> rfl
      rw [hinvert, hbase, invertUnlessUnknown_bitValue (reduceBit_ne_z _ _ _)]
      rfl

/-! ## Operators with two operands -/

/-- The vector that the compiler computes for a code of `g4_binary`. -/
lemma binaryOp_fold (ha : a.Canonical) (hb : b.Canonical) (op : BinaryOp) :
    op.fold a.toValue b.toValue = ofBits (g4Maxw a b) (a.isSigned && b.isSigned) (binaryResult op a b) := by
  have harith : ∀ f : Elab.Value → Elab.Value → Bool → Elab.Value, op.isArithmetic = true →
      (∀ F G : ℕ → Bit, ∀ w s, f (ofBits w s F) (ofBits w s G) s = ofBits w s fun i =>
        Bit.ofBool ((arithNat op w (num w F) (num w G)).testBit i)) →
      binaryArith f a.toValue b.toValue = ofBits (g4Maxw a b) (a.isSigned && b.isSigned) (binaryResult op a b) := by
    intro f hop hf
    have haunknown := toValue_isUnknown ha
    have hbunknown := toValue_isUnknown hb
    rw [G4.toValue] at haunknown hbunknown
    rw [G4.toValue, G4.toValue, binaryArith_ofBits]
    unfold binaryResult
    simp only [haunknown, hbunknown, hop, true_and, ← g4Maxw_eq, hf, binaryBits, if_true]
    split_ifs <;> rfl
  have hbit : ∀ f : Bit → Bit → Bit, ¬op.isArithmetic = true → bitwiseBit op = f →
      ofBits (max a.width b.width) (a.isSigned && b.isSigned) (fun i =>
        f (a.extBits (a.isSigned && b.isSigned) i)
          (b.extBits (a.isSigned && b.isSigned) i)) =
      ofBits (g4Maxw a b) (a.isSigned && b.isSigned) (binaryResult op a b) := by
    rintro _ hop rfl
    rw [← g4Maxw_eq]
    refine ofBits_congr fun i _ => ?_
    rw [binaryResult, if_neg (fun h => hop h.1), binaryBits_bitwise hop]
  cases op with
  | add => exact harith _ rfl fun F G w s => addKnown_ofBits s s s
  | sub => exact harith _ rfl fun F G w s => subKnown_ofBits s s s
  | mul => exact harith _ rfl fun F G w s => mulKnown_ofBits s s s
  | and => exact (zipBits_ofBits andBit).trans (hbit _ (by decide) rfl)
  | or => exact (zipBits_ofBits orBit).trans (hbit _ (by decide) rfl)
  | xor => exact (zipBits_ofBits xorBit).trans (hbit _ (by decide) rfl)
  | xnor => exact bitXnor_ofBits.trans (hbit _ (by decide) rfl)

lemma logicalBit_bitValue {b : Bit} (hb : b ≠ .z) : logicalBit (bitValue b) = b := by
  cases b <;> first | rfl | exact absurd rfl hb

/-- The complement of a one-bit result. -/
lemma lognot_represents {out : G4} {t : Bit} (h : Yields out 1 false fun _ => t) (ht : t ≠ .z) :
    Represents (llgGmpSv4Lognot out) (bitValue (bitNegOne t)) := by
  refine (llgGmpSv4Lognot_yields h.canonical).represents ?_
  rw [h.toValue_eq, show logicalBit (ofBits 1 false fun _ => t) = t from logicalBit_bitValue ht]
  rfl

lemma Represents.eq_bitValue {out : G4} {t : Bit} {v : Elab.Value} (hv : Represents out v)
    (h : Yields out 1 false fun _ => t) : v = bitValue t :=
  hv.2.symm.trans h.toValue_eq

lemma ofBool_ne_z (b : Bool) : Bit.ofBool b ≠ .z := by cases b <;> decide

lemma invertKnownOneBit_bitValue (b : Bool) :
    invertKnownOneBit (bitValue (Bit.ofBool b)) = bitValue (bitNegOne (Bit.ofBool b)) := by
  cases b <;> rfl

lemma equalityBit_ne_z (mismatch unknown : Prop) [Decidable mismatch] [Decidable unknown] :
    equalityBit mismatch unknown ≠ .z := by
  rw [equalityBit]
  split_ifs <;> decide

variable (ha : a.Canonical) (hb : b.Canonical)

include ha hb

lemma compare_represents (op : CompareOp) :
    Represents (g4Compare a b op) (op.fold a.toValue b.toValue) := by
  have haunknown := toValue_isUnknown ha
  have hbunknown := toValue_isUnknown hb
  have horder : ∀ predicate : Ordering → Bool, op ≠ .eq → op ≠ .caseEq → (∀ c, predicate c = op.holds c) →
      Represents (g4Compare a b op) (cmpResult a.toValue b.toValue predicate) := by
    intro predicate heq hcase hpredicate
    refine (g4Compare_order_yields ha hb heq hcase).represents ?_
    rw [G4.toValue] at haunknown hbunknown
    rw [G4.toValue, G4.toValue, cmpResult_ofBits, hpredicate, ← g4Maxw_eq]
    simp only [haunknown, hbunknown]
    rfl
  cases op with
  | eq =>
    refine (g4Compare_eq_yields ha hb).represents ?_
    rw [g4Maxw_eq]
    exact eq_ofBits
  | caseEq =>
    refine (g4Compare_caseEq_yields ha hb).represents ?_
    rw [g4Maxw_eq]
    exact caseEq_ofBits
  | lt =>
    rw [CompareOp.fold, Elab.lt]
    exact horder (· == .lt) (by decide) (by decide) fun c => by cases c <;> rfl
  | le =>
    rw [CompareOp.fold, Elab.le]
    exact horder (· != .gt) (by decide) (by decide) fun c => by cases c <;> rfl
  | gt =>
    rw [CompareOp.fold, Elab.gt]
    exact horder (· == .gt) (by decide) (by decide) fun c => by cases c <;> rfl
  | ge =>
    rw [CompareOp.fold, Elab.ge]
    exact horder (· != .lt) (by decide) (by decide) fun c => by cases c <;> rfl

lemma shift_represents (hwidth : a.width < llgGmpSupportedWidthLimit)
    (right arithmetic : Bool) :
    Represents (g4Shift a b right arithmetic) (shift a.toValue b.toValue right arithmetic) := by
  have hw : a.width ≤ usizeMax := hwidth.le.trans (by decide)
  have hcounts : Counts a b (num b.width b.stateAt) := fun hknown => by
    rw [num_stateAt hb hknown]
    exact ⟨fun _ => rfl, fun hbig => hw.trans ((by decide : usizeMax ≤ 2 ^ 64).trans hbig)⟩
  refine (g4Shift_yields ha hb hcounts right arithmetic).represents ?_
  have hunknown := toValue_isUnknown hb
  rw [G4.toValue] at hunknown
  rw [G4.toValue, G4.toValue, shift_ofBits hw]
  simp only [hunknown]
  split_ifs <;> rfl

lemma wildEq_represents : Represents (g4Match a b .wild) (wildcardEq a.toValue b.toValue) := by
  refine (g4Match_wild_yields ha hb).represents ?_
  rw [g4Maxw_eq]
  exact wildcardEq_ofBits

lemma binary_represents (hwidth : a.width < llgGmpSupportedWidthLimit) (op : BinaryOperator) :
    Represents (op.run a b) (op.fold a.toValue b.toValue) := by
  cases op with
  | binary op => exact (g4Binary_yields ha hb op).represents (binaryOp_fold ha hb op)
  | shift right arithmetic =>
    cases right <;> cases arithmetic <;> exact shift_represents ha hb hwidth _ _
  | compare op => exact compare_represents ha hb op
  | neq =>
    have hyields := g4Compare_eq_yields ha hb
    have heq : Elab.eq a.toValue b.toValue = _ := (compare_represents ha hb .eq).eq_bitValue hyields
    rw [BinaryOperator.fold, Elab.neq, heq, invertUnlessUnknown_bitValue (equalityBit_ne_z _ _)]
    exact lognot_represents hyields (equalityBit_ne_z _ _)
  | caseNeq =>
    have hyields := g4Compare_caseEq_yields ha hb
    have heq : Elab.caseEq a.toValue b.toValue = _ := (compare_represents ha hb .caseEq).eq_bitValue hyields
    rw [BinaryOperator.fold, Elab.caseNeq, heq, invertKnownOneBit_bitValue]
    exact lognot_represents hyields (ofBool_ne_z _)
  | wildEq => exact wildEq_represents ha hb
  | wildNeq =>
    have hyields := g4Match_wild_yields ha hb
    rw [BinaryOperator.fold, wildcardNeq, (wildEq_represents ha hb).eq_bitValue hyields,
      invertUnlessUnknown_bitValue (equalityBit_ne_z _ _)]
    exact lognot_represents hyields (equalityBit_ne_z _ _)
  | logAnd => exact (llgGmpSv4Logand_yields ha hb).represents (logAnd_eq _ _)
  | logOr => exact (llgGmpSv4Logor_yields ha hb).represents (logOr_eq _ _)
  | logImply => exact (llgGmpSv4Logimpl_yields ha hb).represents (logImply_eq _ _)
  | logEquiv => exact (llgGmpSv4Logequiv_yields ha hb).represents (logEquiv_eq _ _)

/-! ## The conditional operator -/

lemma mux_represents (hsel : sel.Canonical) :
    Represents (llgGmpSv4Mux sel a b) (Elab.cond sel.toValue a.toValue b.toValue) := by
  refine (llgGmpSv4Mux_yields hsel ha hb).represents ?_
  rw [g4Maxw_eq]
  refine (cond_ofBits sel.toValue).trans ?_
  refine ofBits_congr fun i _ => ?_
  cases logicalBit sel.toValue <;> rfl

end Agreement

/-- **The runtime agrees with the compiler.**  Every operator of the simulator, applied to canonical values,
returns a canonical value for the vector that the compiler computes, also when the result is stored in a
destination that shares its words with an operand.  The width of a shifted value is below the limit that
the runtime checks. -/
theorem operators_agree {sel a b dst : G4} (hsel : sel.Canonical) (ha : a.Canonical) (hb : b.Canonical)
    (hd : dst.Canonical) (hwidth : a.width < llgGmpSupportedWidthLimit) :
    (∀ op : UnaryOperator, Represents (op.run a) (op.fold a.toValue)) ∧
    (∀ op : BinaryOperator, Represents (op.run a b) (op.fold a.toValue b.toValue)) ∧
    (∀ (op : BinaryOp) (shared : Aliases), shared.Valid dst a b →
      Represents (g4BinaryInto dst a b shared op) (op.fold a.toValue b.toValue)) ∧
    Represents (llgGmpSv4Mux sel a b) (Elab.cond sel.toValue a.toValue b.toValue) :=
  ⟨unary_represents ha, binary_represents ha hb hwidth,
    fun op _ hshared => (g4BinaryInto_yields hd ha hb hshared op).represents (binaryOp_fold ha hb op),
    mux_represents ha hb hsel⟩

/-- A wide value with a narrow one: a sum in place, an arithmetic shift, and a choice by an unknown bit. -/
theorem operators_agree_minWide :
    Represents (g4BinaryInto minWide minWide minusOne ⟨true, false⟩ .add)
      (Elab.add minWide.toValue minusOne.toValue) ∧
    Represents (g4Shift minWide minusOne true true) (arithShr minWide.toValue minusOne.toValue) ∧
    Represents (llgGmpSv4Mux (llgGmpSv4X 1 false) minWide minusOne)
      (Elab.cond (llgGmpSv4X 1 false).toValue minWide.toValue minusOne.toValue) := by
  have hx := (llgGmpSv4X_spec 1 false).1
  obtain ⟨-, hbinary, hinto, hmux⟩ :=
    operators_agree hx minWide_canonical minusOne_canonical minWide_canonical (by decide)
  exact ⟨hinto .add ⟨true, false⟩ ⟨fun _ => rfl, fun h => absurd h (by decide)⟩, hbinary (.shift true true), hmux⟩

end Lapligence.Value
