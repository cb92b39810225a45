import Mathlib.Algebra.Ring.Nat
import Mathlib.Data.Nat.Bits
import Mathlib.Tactic.Common

/-!
# Values at compile time

The 4-state vectors of `core/elab.rs` and the operations that the compiler folds constants with.  A vector
is a list of bits, the most significant one first; a loop over the positions from the last to the first is a
recursion over the list that works on the way back.

`ofBits` builds a vector from a function on positions counted from the least significant bit.  Every
operation has a lemma in `Elab.ValueSpecs` that says what it does to vectors of this form.
-/

namespace Lapligence.Elab

open Function List

/-- A single 4-state bit. -/
inductive Bit where
  | zero
  | one
  | x
  | z
deriving DecidableEq, Repr

namespace Bit

/-- The bit is X or Z. -/
def isUnknown (b : Bit) : Bool := b = .x ∨ b = .z

def ofBool (b : Bool) : Bit := if b then .one else .zero

end Bit

/-- A resolved 4-state vector.  `fill` is the bit of an unsized fill literal. -/
structure Value where
  bits : List Bit
  signed : Bool
  fill : Option Bit
deriving DecidableEq, Repr

namespace Value

def width (v : Value) : ℕ := v.bits.length

/-- The bit at a position counted from the least significant one. -/
def bitLsb (v : Value) (i : ℕ) : Bit :=
  if i < v.bits.length then v.bits.getD (v.bits.length - 1 - i) .x else .x

/-- Some bit is X or Z. -/
def isUnknown (v : Value) : Bool := v.bits.any Bit.isUnknown

/-- The low bits of a 64-bit number. -/
def fromU64 (v width : ℕ) (signed : Bool) : Value :=
  ⟨((range width).map fun i => if i < 64 ∧ v.testBit i then .one else .zero).reverse, signed, none⟩

def fromBits (bits : List Bit) (signed : Bool) : Value := ⟨bits, signed, none⟩

/-- What a signed vector is extended with, from its first bit. -/
def signExtension : Option Bit → Bit
  | some .one => .one
  | some .x => .x
  | some .z => .z
  | some .zero | none => .zero

/-- Keeps the low bits or extends; a fill literal repeats its bit. -/
def resize (v : Value) (width : ℕ) (signed : Bool) : Value :=
  match v.fill with
  | some f => ⟨replicate width f, signed, v.fill⟩
  | none =>
    let n := v.bits.length
    let bits :=
      if width < n then v.bits.drop (n - width)
      else if width > n then
        let ext := if signed then signExtension v.bits.head? else .zero
        replicate (width - n) ext ++ v.bits
      else v.bits
    ⟨bits, signed, v.fill⟩

end Value

open Value

/-! ## Arithmetic on known vectors -/

def allX (width : ℕ) (signed : Bool) : Value := ⟨replicate width .x, signed, none⟩

def zero (width : ℕ) (signed : Bool) : Value := fromBits (replicate width .zero) signed

/-- A bit counts as one only if it is known to be. -/
def oneNat (b : Bit) : ℕ := if b = .one then 1 else 0

/-- The loop of `add_known`: the bits of the sum and the carry out of them. -/
def addLoop : List Bit → List Bit → List Bit × Bool
  | p :: a, q :: b =>
    let r := addLoop a b
    let sum := oneNat p + oneNat q + r.2.toNat
    ((if sum &&& 1 = 1 then .one else .zero) :: r.1, sum ≥ 2)
  | _, _ => ([], false)

def addKnown (a b : Value) (signed : Bool) : Value := fromBits (addLoop a.bits b.bits).1 signed

/-- The complement plus one. -/
def negateKnown (value : Value) : Value :=
  let inverted := fromBits (value.bits.map fun bit => if bit = .one then .zero else .one) value.signed
  let one := zero value.width value.signed
  let one := { one with bits := one.bits.set (one.bits.length - 1) .one }
  addKnown inverted one value.signed

def subKnown (a b : Value) (signed : Bool) : Value :=
  addKnown a { negateKnown b with signed := signed } signed

/-- One round of the inner loop of `mul_known`. -/
def mulStep (a : Value) (rhsIndex : ℕ) (st : (ℕ → Bool) × Bool) (lhsIndex : ℕ) : (ℕ → Bool) × Bool :=
  let outIndex := rhsIndex + lhsIndex
  let sum := (st.1 outIndex).toNat + oneNat (a.bitLsb lhsIndex) + st.2.toNat
  (update st.1 outIndex (sum &&& 1 == 1), sum ≥ 2)

/-- One round of the outer loop of `mul_known`. -/
def mulRow (a b : Value) (width : ℕ) (resultLsb : ℕ → Bool) (rhsIndex : ℕ) : ℕ → Bool :=
  if b.bitLsb rhsIndex ≠ .one then resultLsb
  else ((range (width - rhsIndex)).foldl (mulStep a rhsIndex) (resultLsb, false)).1

/-- The product modulo `2 ^ width`, one row for each one of `b`. -/
def mulKnown (a b : Value) (signed : Bool) : Value :=
  let width := a.width
  let resultLsb := (range width).foldl (mulRow a b width) fun _ => false
  fromBits (((range width).map fun i => Bit.ofBool (resultLsb i)).reverse) signed

/-- The order at the first bits that differ. -/
def unsignedCmp (a b : Value) : Ordering :=
  ((a.bits.zip b.bits).findSome? fun p =>
    match compare (decide (p.1 = .one)) (decide (p.2 = .one)) with
    | .eq => none
    | ordering => some ordering).getD .eq

/-- The one-bit result X. -/
def bitX : Value := fromBits [.x] false

def invertKnownOneBit (value : Value) : Value :=
  fromBits [if value.bits.head? = some .one then .zero else .one] false

/-! ## Arithmetic -/

def maxWidth (a b : Value) : ℕ := max a.width b.width

/-- `binary_arith_operands`, and what the operations do with the operands. -/
def binaryArith (f : Value → Value → Bool → Value) (a b : Value) : Value :=
  let w := maxWidth a b
  let s := a.signed && b.signed
  let a := a.resize w s
  let b := b.resize w s
  if a.isUnknown ∨ b.isUnknown then allX w s else f a b s

def isZero (value : Value) : Bool := value.bits.all (· = .zero)

/-- One round of the loop of `power`: the result and the base. -/
def powerStep (s : Bool) (st : Value × Value) (bit : Bit) : Value × Value :=
  (if bit = .one then mulKnown st.1 st.2 s else st.1, mulKnown st.2 st.2 s)

/-- Square and multiply; a negative exponent is decided by the base. -/
def power (a b : Value) : Value :=
  let w := a.width
  let s := a.signed
  if a.isUnknown ∨ b.isUnknown then allX w s
  else if b.signed ∧ b.bits.head? = some .one then
    if isZero a then allX w s
    else if s ∧ a.bits ≠ [] ∧ a.bits.all (· = .one) then
      if b.bitLsb 0 = .one then a else fromU64 1 w s
    else if a.bits.getLast? = some .one ∧ (a.bits.take (a.bits.length - 1)).all (· = .zero) then fromU64 1 w s
    else zero w s
  else
    let result := zero w s
    let result := { result with bits := result.bits.set (result.bits.length - 1) .one }
    (b.bits.reverse.foldl (powerStep s) (result, a)).1

def add (a b : Value) : Value := binaryArith addKnown a b
def sub (a b : Value) : Value := binaryArith subKnown a b
def mul (a b : Value) : Value := binaryArith mulKnown a b

/-! ## Bitwise operations -/

/-- The bits of the resized operands, combined. -/
def zipBits (f : Bit → Bit → Bit) (a b : Value) : Value :=
  let w := maxWidth a b
  let s := a.signed && b.signed
  ⟨zipWith f (a.resize w s).bits (b.resize w s).bits, s, none⟩

/-- A zero wins over an unknown bit. -/
def andBit : Bit → Bit → Bit
  | .zero, _ | _, .zero => .zero
  | .one, .one => .one
  | _, _ => .x

/-- A one wins over an unknown bit. -/
def orBit : Bit → Bit → Bit
  | .one, _ | _, .one => .one
  | .zero, .zero => .zero
  | _, _ => .x

def xorBit : Bit → Bit → Bit
  | .x, _ | .z, _ | _, .x | _, .z => .x
  | .one, .one | .zero, .zero => .zero
  | _, _ => .one

def bitNegOne : Bit → Bit
  | .zero => .one
  | .one => .zero
  | .x | .z => .x

def bitAnd (a b : Value) : Value := zipBits andBit a b
def bitOr (a b : Value) : Value := zipBits orBit a b
def bitXor (a b : Value) : Value := zipBits xorBit a b

def bitXnor (a b : Value) : Value :=
  let xor := bitXor a b
  ⟨xor.bits.map bitNegOne, xor.signed, none⟩

def bitNeg (a : Value) : Value := ⟨a.bits.map bitNegOne, a.signed, none⟩

/-- X if a bit is unknown. -/
def minus (a : Value) : Value :=
  if a.isUnknown then allX a.width a.signed else negateKnown a

/-! ## Logical operations -/

/-- The truth of a vector: one known one suffices. -/
def logicalBit (a : Value) : Bit :=
  if .one ∈ a.bits then .one else if a.isUnknown then .x else .zero

def logNot (a : Value) : Value :=
  match logicalBit a with
  | .zero => fromU64 1 1 false
  | .one => fromU64 0 1 false
  | .x | .z => bitX

def logAnd (a b : Value) : Value :=
  match logicalBit a, logicalBit b with
  | .zero, _ | _, .zero => fromU64 0 1 false
  | .one, .one => fromU64 1 1 false
  | _, _ => bitX

def logOr (a b : Value) : Value :=
  match logicalBit a, logicalBit b with
  | .one, _ | _, .one => fromU64 1 1 false
  | .zero, .zero => fromU64 0 1 false
  | _, _ => bitX

/-- True if `a` is false or `b` is true, whatever the other is. -/
def logImply (a b : Value) : Value :=
  match logicalBit a, logicalBit b with
  | .zero, _ | _, .one => fromU64 1 1 false
  | .one, .zero => fromU64 0 1 false
  | _, _ => bitX

def logEquiv (a b : Value) : Value :=
  match logicalBit a, logicalBit b with
  | .zero, .zero | .one, .one => fromU64 1 1 false
  | .zero, .one | .one, .zero => fromU64 0 1 false
  | _, _ => bitX

/-! ## Reductions -/

/-- The complement of a one-bit result that keeps X. -/
def invertUnlessUnknown (r : Value) : Value := if r.isUnknown then r else invertKnownOneBit r

/-- A zero decides, also beside unknown bits. -/
def unaryAnd (a : Value) : Value :=
  if .zero ∈ a.bits then fromU64 0 1 false
  else if a.isUnknown then bitX
  else fromU64 1 1 false

def unaryNand (a : Value) : Value := invertUnlessUnknown (unaryAnd a)

/-- A one decides, also beside unknown bits. -/
def unaryOr (a : Value) : Value :=
  if .one ∈ a.bits then fromU64 1 1 false
  else if a.isUnknown then bitX
  else fromU64 0 1 false

def unaryNor (a : Value) : Value := invertUnlessUnknown (unaryOr a)

/-- The parity of the ones. -/
def unaryXor (a : Value) : Value :=
  if a.isUnknown then bitX
  else
    let ones := (a.bits.filter (· = .one)).length
    fromU64 (if ones % 2 = 1 then 1 else 0) 1 false

def unaryXnor (a : Value) : Value := invertUnlessUnknown (unaryXor a)

/-! ## Shifts -/

/-- `usize::MAX`. -/
def usizeMax : ℕ := 2 ^ 64 - 1

/-- The shift count, saturating. -/
def shiftCount (b : Value) : ℕ :=
  b.bits.foldl (fun value bit => min (min (value * 2) usizeMax + oneNat bit) usizeMax) 0

/-- All shifts; an unknown count gives X in every bit. -/
def shift (a b : Value) (right arith : Bool) : Value :=
  let w := a.width
  let s := a.signed
  if b.isUnknown then allX w s
  else
    let sh := shiftCount b
    if sh ≥ w then
      let fill := if right ∧ arith ∧ s ∧ w > 0 then a.bits.headD .zero else .zero
      fromBits (replicate w fill) s
    else if right then
      let fill := if arith ∧ s then a.bits.headD .zero else .zero
      ⟨replicate sh fill ++ a.bits.take (w - sh), s, none⟩
    else ⟨a.bits.drop sh ++ replicate sh .zero, s, none⟩

def shl (a b : Value) : Value := shift a b false false
def shr (a b : Value) : Value := shift a b true false
def arithShl (a b : Value) : Value := shift a b false true
def arithShr (a b : Value) : Value := shift a b true true

/-! ## Comparisons -/

/-- The loop of `eq`; `none` is a mismatch. -/
def eqLoop : List (Bit × Bit) → Bool → Option Bool
  | [], unknown => some unknown
  | (left, right) :: rest, unknown =>
    if left.isUnknown ∨ right.isUnknown then eqLoop rest true
    else if left ≠ right then none
    else eqLoop rest unknown

/-- The result of a comparison that found a mismatch, or an unknown bit, or neither. -/
def eqResult : Option Bool → Value
  | none => fromU64 0 1 false
  | some true => bitX
  | some false => fromU64 1 1 false

/-- A known mismatch decides, also beside unknown bits. -/
def eq (a b : Value) : Value :=
  let w := maxWidth a b
  let signed := a.signed && b.signed
  eqResult (eqLoop ((a.resize w signed).bits.zip (b.resize w signed).bits) false)

def neq (a b : Value) : Value := invertUnlessUnknown (eq a b)

/-- X and Z are compared like the other bits. -/
def caseEq (a b : Value) : Value :=
  let w := maxWidth a b
  let signed := a.signed && b.signed
  fromU64 (if (a.resize w signed).bits = (b.resize w signed).bits then 1 else 0) 1 false

def caseNeq (a b : Value) : Value := invertKnownOneBit (caseEq a b)

/-- The loop of `wildcard_eq` over positions; `none` is a mismatch. -/
def wildcardLoop (ra rb : Value) : List ℕ → Bool → Option Bool
  | [], unknown => some unknown
  | i :: rest, unknown =>
    let right := rb.bitLsb i
    if right.isUnknown then wildcardLoop ra rb rest unknown
    else
      let left := ra.bitLsb i
      if left.isUnknown then wildcardLoop ra rb rest true
      else if left ≠ right then none
      else wildcardLoop ra rb rest unknown

/-- Unknown bits of `b` match every bit. -/
def wildcardEq (a b : Value) : Value :=
  let w := maxWidth a b
  let signed := a.signed && b.signed
  eqResult (wildcardLoop (a.resize w signed) (b.resize w signed) (range w) false)

def wildcardNeq (a b : Value) : Value := invertUnlessUnknown (wildcardEq a b)

/-- The order of two known vectors, signed if both are. -/
def knownCmp (a b : Value) : Ordering :=
  let bothSigned := a.signed && b.signed
  let w := maxWidth a b
  let ra := a.resize w bothSigned
  let rb := b.resize w bothSigned
  if bothSigned ∧ w > 0 ∧ ra.bits.headD .x ≠ rb.bits.headD .x then
    if ra.bits.headD .x = .one then .lt else .gt
  else unsignedCmp ra rb

/-- X if a bit of an operand is unknown. -/
def cmpResult (a b : Value) (predicate : Ordering → Bool) : Value :=
  if a.isUnknown ∨ b.isUnknown then bitX
  else fromU64 (predicate (knownCmp a b)).toNat 1 false

def lt (a b : Value) : Value := cmpResult a b (· == .lt)
def le (a b : Value) : Value := cmpResult a b (· != .gt)
def gt (a b : Value) : Value := cmpResult a b (· == .gt)
def ge (a b : Value) : Value := cmpResult a b (· != .lt)

/-! ## The conditional operator -/

/-- A bit of the two branches when the selector is unknown. -/
def mergeBit (left right : Bit) : Bit := if left = right ∧ left ≠ .z then left else .x

/-- An unknown selector merges the branches bit by bit. -/
def cond (sel a b : Value) : Value :=
  let w := maxWidth a b
  let signed := a.signed && b.signed
  let ra := a.resize w signed
  let rb := b.resize w signed
  match logicalBit sel with
  | .one => ra
  | .zero => rb
  | .x | .z => fromBits (zipWith mergeBit ra.bits rb.bits) signed

/-! ## Vectors by their positions -/

/-- The vector of `w` bits with `f i` at position `i` from the least significant one. -/
def ofBits (w : ℕ) (signed : Bool) (f : ℕ → Bit) : Value :=
  ⟨((range w).map f).reverse, signed, none⟩

end Lapligence.Elab
