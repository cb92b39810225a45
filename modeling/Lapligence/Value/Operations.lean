import Lapligence.Value.Division

/-!
# Operations on compact values

The operators of `value_gmp`: arithmetic, bitwise, logical and comparison operators, reductions, shifts and
the conditional operator, each with the path for values in one word (`backend.h`) and the path for arrays of
words (`arithmetic.c`, `logic.c`, `shifts_reductions.c`, `comparison_membership.c`).

A null plane is read as zeros, so where the code tests for it before it reads, the empty list stands for it.
A loop over the words that only reads and writes the word of its round is a recursion over the lists.
-/

namespace Lapligence.Value

open WordLists Constraints List

/-- The plane `b` as an array, empty for a null pointer. -/
def G4.wordsB (v : G4) : Words := v.b.getD []

/-! ## Spans -/

/-- One plane of `g4_span`. -/
structure SpanPlane where
  words : Words
  full : ℕ
  tail : BitVec 64
  fill : BitVec 64

/-- One plane of `g4_span_of`. -/
def spanPlane (words : Words) (width : ℕ) (sign : Bool) : SpanPlane :=
  let full := width / 64
  let n := g4Words width
  let fill : BitVec 64 :=
    if sign ∧ n ≠ 0 ∧ (words.getD (n - 1) 0 >>> ((width - 1) % 64)) &&& 1#64 ≠ 0 then BitVec.allOnes 64
    else 0
  let tail := if width % 64 ≠ 0 then words.getD full 0 ||| (fill &&& ~~~g4Topmask width) else fill
  ⟨words, full, tail, fill⟩

/-- `G4_SPAN_A` and `G4_SPAN_B`. -/
def SpanPlane.word (s : SpanPlane) (i : ℕ) : BitVec 64 :=
  if i < s.full then s.words.getD i 0 else if i = s.full then s.tail else s.fill

/-- The plane `a` of `g4_span_of`. -/
def G4.spanA (v : G4) (sign : Bool) : SpanPlane := spanPlane v.a v.width sign

/-- The plane `b` of `g4_span_of`. -/
def G4.spanB (v : G4) (sign : Bool) : SpanPlane := spanPlane v.wordsB v.width sign

/-- The mask of word `i` out of `n`. -/
def wordMask (width n i : ℕ) : BitVec 64 := if i + 1 = n then g4Topmask width else BitVec.allOnes 64

/-! ## Conversion -/

/-- An array after its first words are written. -/
def writeWords (out words : Words) : Words := words ++ out.drop words.length

/-- `llg_gmp_sv4_convert_wide`. -/
def llgGmpSv4ConvertWide (v : G4) (width : ℕ) (sign extend : Bool) : G4 :=
  let out := llgGmpSv4New width sign (llgGmpSv4IsUnknown v)
  llgGmpSv4Finish
    { out with
      a := writeWords out.a (llgGmpSv4ExtendPlane width (some v.a) v.width extend)
      b := out.b.map fun b => writeWords b (llgGmpSv4ExtendPlane width v.b v.width extend) }

/-- `g4_convert`. -/
def G4.convert (v : G4) (w : ℕ) (s extend : Bool) : G4 :=
  if v.width ≤ 64 ∧ w ≤ 64 then
    g4Small (g4ExtendWord v.smallA v.width w extend) (g4ExtendWord v.smallB v.width w extend) w s
  else llgGmpSv4ConvertWide v w s extend

/-- `llg_gmp_sv4_resize`. -/
def llgGmpSv4Resize (v : G4) (w : ℕ) (s : Bool) : G4 := v.convert w s s

/-! ## Binary operators -/

/-- The operation codes of `g4_binary`. -/
inductive BinaryOp where
  | add | sub | mul | and | or | xor | xnor
deriving DecidableEq, Repr

/-- The codes up to 2. -/
def BinaryOp.isArithmetic : BinaryOp → Bool
  | .add | .sub | .mul => true
  | _ => false

/-- The loop for sums and differences. -/
def addCarry (subtract : Bool) : Words → Words → BitVec 64 → Words
  | x :: xs, y :: ys, carry =>
    let y := if subtract then ~~~y else y
    let sum := x + y
    let r := sum + carry
    r :: addCarry subtract xs ys (if sum < x ∨ r < sum then 1#64 else 0#64)
  | _, _, _ => []

/-- Sums, differences and products of single words. -/
def arithWord (op : BinaryOp) (x y : BitVec 64) : BitVec 64 :=
  match op with
  | .add => x + y
  | .sub => x - y
  | _ => x * y

/-- Words of known bits. -/
def knownWord (op : BinaryOp) (x y : BitVec 64) : BitVec 64 :=
  match op with
  | .and => x &&& y
  | .or => x ||| y
  | .xor => x ^^^ y
  | _ => ~~~(x ^^^ y)

/-- Words with unknown bits: the planes `a` and `b` of the result. -/
def bitwiseWord (op : BinaryOp) (x xb y yb : BitVec 64) : BitVec 64 × BitVec 64 :=
  match op with
  | .and =>
    let ones := x &&& ~~~xb &&& y &&& ~~~yb
    let unknown := ~~~(((~~~x &&& ~~~xb) ||| (~~~y &&& ~~~yb)) ||| ones)
    (ones ||| unknown, unknown)
  | .or =>
    let ones := (x &&& ~~~xb) ||| (y &&& ~~~yb)
    let unknown := ~~~((~~~x &&& ~~~xb &&& ~~~y &&& ~~~yb) ||| ones)
    (ones ||| unknown, unknown)
  | _ =>
    let unknown := xb ||| yb
    let ones := (if op = .xor then x ^^^ y else ~~~(x ^^^ y)) &&& ~~~unknown
    (ones ||| unknown, unknown)

/-- `multiply_word`. -/
def multiplyWord (a b : BitVec 64) : BitVec 64 × BitVec 64 :=
  let a0 := a &&& 0xffffffff#64
  let a1 := a >>> 32
  let b0 := b &&& 0xffffffff#64
  let b1 := b >>> 32
  let p := a0 * b0
  let t := a1 * b0 + (p >>> 32)
  let u := a0 * b1 + (t &&& 0xffffffff#64)
  ((u <<< 32) ||| (p &&& 0xffffffff#64), a1 * b1 + (t >>> 32) + (u >>> 32))

/-- The inner loop of the portable `llg_gmp_sv4_kernel_mul`, on the words of `out` from `i` on. -/
def kernelMulRow (y : BitVec 64) : Words → Words → BitVec 64 → Words
  | e :: out, x :: a, carry =>
    let lo := (multiplyWord x y).1
    let hi := (multiplyWord x y).2
    let sum := e + lo
    let hi := hi + if sum < lo then 1#64 else 0#64
    let r := sum + carry
    let hi := hi + if r < sum then 1#64 else 0#64
    r :: kernelMulRow y out a hi
  | out, _, _ => out

/-- The outer loop; the words below `i` are final. -/
def kernelMulRows (a : Words) : Words → Words → Words
  | y :: b, out =>
    match kernelMulRow y out a 0 with
    | [] => []
    | e :: out => e :: kernelMulRows a b out
  | [], out => out

/-- `llg_gmp_sv4_kernel_mul`. -/
def llgGmpSv4KernelMul (a b : Words) (n : ℕ) : Words := kernelMulRows a b (replicate n 0)

/-- `multiply`. -/
def multiply (a b : G4) : G4 :=
  let w := g4Maxw a b
  let s := a.isSigned && b.isSigned
  let mixed := a.width ≠ w ∨ b.width ≠ w
  let x := if mixed then llgGmpSv4ExtendPlane w (some a.a) a.width s else a.a
  let y := if mixed then llgGmpSv4ExtendPlane w (some b.a) b.width s else b.a
  ⟨w, s, maskTop (llgGmpSv4KernelMul x y (g4Words w)) w, none⟩

/-- `llg_gmp_sv4_binary_known_equal`. -/
def llgGmpSv4BinaryKnownEqual (lhs rhs : Words) (width : ℕ) (sign : Bool) (op : BinaryOp) : G4 :=
  let result :=
    if op.isArithmetic then addCarry (op = .sub) lhs rhs (if op = .sub then 1#64 else 0#64)
    else zipWith (knownWord op) lhs rhs
  ⟨width, sign, maskTop result width, none⟩

/-- `llg_gmp_sv4_binary_wide`. -/
def llgGmpSv4BinaryWide (a b : G4) (op : BinaryOp) : G4 :=
  let w := g4Maxw a b
  let s := a.isSigned && b.isSigned
  let unknown : Bool := llgGmpSv4IsUnknown a ∨ llgGmpSv4IsUnknown b
  if op.isArithmetic ∧ unknown then llgGmpSv4X w s
  else if op = .mul then multiply a b
  else
    let n := g4Words w
    let aa := llgGmpSv4ExtendPlane w (some a.a) a.width s
    let ab := llgGmpSv4ExtendPlane w a.b a.width s
    let ba := (range n).map (b.spanA s).word
    let bb := (range n).map (b.spanB s).word
    if op.isArithmetic then
      llgGmpSv4Finish
        ⟨w, s, addCarry (op = .sub) aa ba (if op = .sub then 1#64 else 0#64), none⟩
    else if ¬unknown then llgGmpSv4Finish ⟨w, s, zipWith (knownWord op) aa ba, none⟩
    else
      let words := (range n).map fun i =>
        bitwiseWord op (aa.getD i 0) (ab.getD i 0) (ba.getD i 0) (bb.getD i 0)
      llgGmpSv4Finish ⟨w, s, words.map Prod.fst, some (words.map Prod.snd)⟩

/-- `g4_binary`. -/
def g4Binary (a b : G4) (op : BinaryOp) : G4 :=
  let w := g4Maxw a b
  let s := a.isSigned && b.isSigned
  if w > 64 then
    if op.isArithmetic ∧ (llgGmpSv4IsUnknown a ∨ llgGmpSv4IsUnknown b) then llgGmpSv4X w s
    else if op ≠ .mul ∧ a.width = b.width ∧ a.b = none ∧ b.b = none then
      llgGmpSv4BinaryKnownEqual a.a b.a w s op
    else llgGmpSv4BinaryWide a b op
  else
    let aa := g4ExtendWord a.smallA a.width w s
    let ab := g4ExtendWord a.smallB a.width w s
    let ba := g4ExtendWord b.smallA b.width w s
    let bb := g4ExtendWord b.smallB b.width w s
    if op.isArithmetic then
      if ab ||| bb ≠ 0 then llgGmpSv4X w s
      else g4Small (arithWord op aa ba) 0 w s
    else
      let r := bitwiseWord op aa ab ba bb
      g4Small r.1 r.2 w s

/-! ## Operators with a destination -/

/-- How a destination shares its words with the operands. -/
structure Aliases where
  left : Bool
  right : Bool

/-- The loop for sums and differences into a destination; an operand that shares the words of the destination
is read from there. -/
def addInto (subtract : Bool) (shared : Aliases) : Words → Words → Words → BitVec 64 → Words
  | d :: dst, x :: xs, y :: ys, carry =>
    let x := if shared.left then d else x
    let y := if shared.right then d else y
    let y := if subtract then ~~~y else y
    let sum := x + y
    let r := sum + carry
    r :: addInto subtract shared dst xs ys (if sum < x ∨ r < sum then 1#64 else 0#64)
  | dst, _, _, _ => dst

/-- `llg_gmp_sv4_arithmetic_into_wide`. -/
def llgGmpSv4ArithmeticIntoWide (dst a b : G4) (shared : Aliases) (op : BinaryOp) : G4 :=
  let w := g4Maxw a b
  if dst.width ≠ w ∨ a.width ≠ w ∨ b.width ≠ w then g4Binary a b op
  else
    let unknown : Bool := llgGmpSv4IsUnknown a ∨ llgGmpSv4IsUnknown b
    let sign := a.isSigned && b.isSigned
    let n := g4Words dst.width
    let ones := replicate n (BitVec.allOnes 64)
    if unknown then llgGmpSv4Finish { dst with isSigned := sign, a := ones, b := some ones }
    else if op = .mul ∧ (shared.left ∨ shared.right) then g4Binary a b .mul
    else
      let words :=
        if op = .mul then llgGmpSv4KernelMul a.a b.a n
        else addInto (op = .sub) shared dst.a a.a b.a (if op = .sub then 1#64 else 0#64)
      llgGmpSv4Finish
        { dst with isSigned := sign, a := words, b := dst.b.map fun _ => replicate n 0 }

/-- The loop of `llg_gmp_sv4_bitwise_into_wide`. -/
def bitwiseInto (op : BinaryOp) (shared : Aliases) : Words → Words → Words → Words
  | d :: dst, x :: xs, y :: ys =>
    knownWord op (if shared.left then d else x) (if shared.right then d else y) ::
      bitwiseInto op shared dst xs ys
  | dst, _, _ => dst

/-- `llg_gmp_sv4_bitwise_into_wide`. -/
def llgGmpSv4BitwiseIntoWide (dst a b : G4) (shared : Aliases) (op : BinaryOp) : G4 :=
  let w := g4Maxw a b
  if dst.width ≠ w ∨ a.width ≠ w ∨ b.width ≠ w ∨ a.b.isSome ∨ b.b.isSome then g4Binary a b op
  else
    llgGmpSv4Finish
      { dst with
        isSigned := a.isSigned && b.isSigned
        a := bitwiseInto op shared dst.a a.a b.a
        b := dst.b.map fun _ => replicate (g4Words dst.width) 0 }

/-- `g4_arithmetic_into` and `g4_bitwise_into`. -/
def g4BinaryInto (dst a b : G4) (shared : Aliases) (op : BinaryOp) : G4 :=
  if g4Maxw a b ≤ 64 then g4Binary a b op
  else if op.isArithmetic then llgGmpSv4ArithmeticIntoWide dst a b shared op
  else llgGmpSv4BitwiseIntoWide dst a b shared op

/-! ## Unary operators -/

/-- `llg_gmp_sv4_unary_wide` for a negation. -/
def llgGmpSv4NegWide (v : G4) : G4 :=
  if llgGmpSv4IsUnknown v then llgGmpSv4X v.width v.isSigned
  else llgGmpSv4Finish ⟨v.width, v.isSigned, negateCarry 1#64 v.a, none⟩

/-- `llg_gmp_sv4_unary_wide` for a complement. -/
def llgGmpSv4BitnegWide (v : G4) : G4 :=
  match v.b with
  | some b => llgGmpSv4Finish ⟨v.width, v.isSigned, zipWith (fun a b => ~~~a ||| b) v.a b, some b⟩
  | none => llgGmpSv4Finish ⟨v.width, v.isSigned, v.a.map (~~~ ·), none⟩

/-- `llg_gmp_sv4_neg`. -/
def llgGmpSv4Neg (v : G4) : G4 :=
  if v.width > 64 then llgGmpSv4NegWide v
  else if v.smallB ≠ 0 then llgGmpSv4X v.width v.isSigned
  else g4Small (0 - v.smallA) 0 v.width v.isSigned

/-- `llg_gmp_sv4_bitneg`. -/
def llgGmpSv4Bitneg (v : G4) : G4 :=
  if v.width > 64 then llgGmpSv4BitnegWide v
  else g4Small (~~~v.smallA ||| v.smallB) v.smallB v.width v.isSigned

/-! ## Logical operators -/

/-- `llg_gmp_sv4_truth_wide`. -/
def llgGmpSv4TruthWide (v : G4) : ℕ :=
  match v.b with
  | none => if v.a.any (· ≠ 0) then 1 else 0
  | some b => if (zipWith (fun a b => a &&& ~~~b) v.a b).any (· ≠ 0) then 1 else 2

/-- `g4_truth`: 0, 1, or 2 for unknown. -/
def g4Truth (v : G4) : ℕ :=
  if v.width > 64 then llgGmpSv4TruthWide v
  else if v.smallA &&& ~~~v.smallB ≠ 0 then 1
  else if v.smallB ≠ 0 then 2
  else 0

/-- `g4_predicate`. -/
def g4Predicate (truth : ℕ) : G4 := llgGmpSv4Fill truth 1 false

/-- `llg_gmp_sv4_lognot`. -/
def llgGmpSv4Lognot (v : G4) : G4 :=
  let t := g4Truth v
  g4Predicate (if t = 2 then 2 else if t = 0 then 1 else 0)

/-- `llg_gmp_sv4_logand`. -/
def llgGmpSv4Logand (a b : G4) : G4 :=
  let x := g4Truth a
  let y := g4Truth b
  g4Predicate (if x = 0 ∨ y = 0 then 0 else if x = 1 ∧ y = 1 then 1 else 2)

/-- `llg_gmp_sv4_logor`. -/
def llgGmpSv4Logor (a b : G4) : G4 :=
  let x := g4Truth a
  let y := g4Truth b
  g4Predicate (if x = 1 ∨ y = 1 then 1 else if x = 0 ∧ y = 0 then 0 else 2)

/-- `llg_gmp_sv4_logimpl`. -/
def llgGmpSv4Logimpl (a b : G4) : G4 :=
  let x := g4Truth a
  let y := g4Truth b
  g4Predicate (if x = 0 ∨ y = 1 then 1 else if x = 1 ∧ y = 0 then 0 else 2)

/-- `llg_gmp_sv4_logequiv`. -/
def llgGmpSv4Logequiv (a b : G4) : G4 :=
  let x := g4Truth a
  let y := g4Truth b
  g4Predicate (if x = 2 ∨ y = 2 then 2 else if x = y then 1 else 0)

/-! ## Comparisons -/

/-- The operation codes of `g4_compare`. -/
inductive CompareOp where
  | eq | caseEq | lt | le | gt | ge
deriving DecidableEq, Repr

/-- The result of an ordered predicate. -/
def CompareOp.holds : CompareOp → Ordering → Bool
  | .lt, c => c = .lt
  | .le, c => c ≠ .gt
  | .gt, c => c = .gt
  | _, c => c ≠ .lt

/-- The words that round `i` of `llg_gmp_sv4_compare_wide` compares. -/
structure CompareWords where
  aa : BitVec 64
  ab : BitVec 64
  ba : BitVec 64
  bb : BitVec 64

/-- The loop of `llg_gmp_sv4_compare_wide` over the rounds below `i`: unknown bits and the order so far, or
`none` if a difference ends the loop. -/
def compareLoop (op : CompareOp) (words : ℕ → CompareWords) : ℕ → Bool → Ordering → Option (Bool × Ordering)
  | 0, unknown, c => some (unknown, c)
  | i + 1, unknown, c =>
    let v := words i
    match op with
    | .eq =>
      if (v.aa ^^^ v.ba) &&& ~~~(v.ab ||| v.bb) ≠ 0 then none
      else compareLoop op words i (unknown || decide (v.ab ||| v.bb ≠ 0)) c
    | .caseEq =>
      if v.aa ≠ v.ba ∨ v.ab ≠ v.bb then none else compareLoop op words i unknown c
    | _ =>
      compareLoop op words i unknown
        (if c = .eq ∧ v.aa ≠ v.ba then if v.aa < v.ba then .lt else .gt else c)

/-- `llg_gmp_sv4_compare_wide`. -/
def llgGmpSv4CompareWide (a b : G4) (op : CompareOp) : G4 :=
  let w := g4Maxw a b
  let s := a.isSigned && b.isSigned
  if op ≠ .eq ∧ op ≠ .caseEq ∧ (llgGmpSv4IsUnknown a ∨ llgGmpSv4IsUnknown b) then g4Predicate 2
  else if a.width = b.width ∧
      (op = .caseEq ∨ ¬llgGmpSv4IsUnknown a ∧ ¬llgGmpSv4IsUnknown b ∧ op = .eq) then
    if a.a ≠ b.a then g4Predicate 0
    -- two planes are compared word by word, and a missing one only equals a missing one
    else g4Predicate (if a.b = b.b then 1 else 0)
  else
    let n := g4Words w
    let words := fun i =>
      let mask := wordMask w n i
      ⟨(a.spanA s).word i &&& mask, (a.spanB s).word i &&& mask, (b.spanA s).word i &&& mask,
        (b.spanB s).word i &&& mask⟩
    match compareLoop op words n false .eq with
    | none => g4Predicate 0
    | some (unknown, c) =>
      if op = .eq ∨ op = .caseEq then g4Predicate (if unknown then 2 else 1)
      else
        let c := if s ∧ (a.spanA s).fill ≠ (b.spanA s).fill then
          if (a.spanA s).fill ≠ 0 then .lt else .gt else c
        g4Predicate (if op.holds c then 1 else 0)

/-- `g4_compare`. -/
def g4Compare (a b : G4) (op : CompareOp) : G4 :=
  let w := g4Maxw a b
  let s := a.isSigned && b.isSigned
  if w > 64 then llgGmpSv4CompareWide a b op
  else
    let aa := g4ExtendWord a.smallA a.width w s
    let ab := g4ExtendWord a.smallB a.width w s
    let ba := g4ExtendWord b.smallA b.width w s
    let bb := g4ExtendWord b.smallB b.width w s
    if op = .caseEq then g4Predicate (if aa = ba ∧ ab = bb then 1 else 0)
    else if op = .eq then
      g4Predicate (if (aa ^^^ ba) &&& ~~~(ab ||| bb) ≠ 0 then 0 else if ab ||| bb ≠ 0 then 2 else 1)
    else if ab ||| bb ≠ 0 then g4Predicate 2
    else
      let c : Ordering := if aa < ba then .lt else if aa > ba then .gt else .eq
      let an := aa >>> (w - 1)
      let bn := ba >>> (w - 1)
      let c := if s ∧ w ≠ 0 ∧ an ≠ bn then if an ≠ 0 then .lt else .gt else c
      g4Predicate (if op.holds c then 1 else 0)

/-- The modes of `g4_match`. -/
inductive MatchMode where
  | casex | casez | wild
deriving DecidableEq, Repr

/-- The loop of `llg_gmp_sv4_match_wide` from word `i` on; `none` if a difference ends it. -/
def matchLoop (mode : MatchMode) (words : ℕ → CompareWords) (mask : ℕ → BitVec 64) :
    List ℕ → Bool → Option Bool
  | [], unknown => some unknown
  | i :: rest, unknown =>
    let v := words i
    match mode with
    | .casex =>
      if (v.aa ^^^ v.ba) &&& ~~~(v.ab ||| v.bb) &&& mask i ≠ 0 then none
      else matchLoop mode words mask rest unknown
    | .casez =>
      let care := ~~~((~~~v.aa &&& v.ab) ||| (~~~v.ba &&& v.bb)) &&& mask i
      if ((v.aa ^^^ v.ba) ||| (v.ab ^^^ v.bb)) &&& care ≠ 0 then none
      else matchLoop mode words mask rest unknown
    | .wild =>
      let care := ~~~v.bb &&& mask i
      if (v.aa ^^^ v.ba) &&& ~~~v.ab &&& care ≠ 0 then none
      else matchLoop mode words mask rest (unknown || decide (v.ab &&& care ≠ 0))

/-- `llg_gmp_sv4_match_wide`. -/
def llgGmpSv4MatchWide (a b : G4) (mode : MatchMode) : G4 :=
  let width := g4Maxw a b
  let sign : Bool := mode = .wild ∧ a.isSigned ∧ b.isSigned
  let n := g4Words width
  let words := fun i =>
    ⟨(a.spanA sign).word i, (a.spanB sign).word i, (b.spanA sign).word i, (b.spanB sign).word i⟩
  match matchLoop mode words (wordMask width n) (range n) false with
  | none => g4Predicate 0
  | some unknown => g4Predicate (if unknown then 2 else 1)

/-- `g4_match`. -/
def g4Match (a b : G4) (mode : MatchMode) : G4 :=
  if g4Maxw a b > 64 then llgGmpSv4MatchWide a b mode
  else
    let w := g4Maxw a b
    let sign : Bool := mode = .wild ∧ a.isSigned ∧ b.isSigned
    let aa := g4ExtendWord a.smallA a.width w sign
    let ab := g4ExtendWord a.smallB a.width w sign
    let ba := g4ExtendWord b.smallA b.width w sign
    let bb := g4ExtendWord b.smallB b.width w sign
    match mode with
    | .casex => g4Predicate (if (aa ^^^ ba) &&& ~~~(ab ||| bb) = 0 then 1 else 0)
    | .casez =>
      let care := ~~~((~~~aa &&& ab) ||| (~~~ba &&& bb)) &&& g4Mask w
      g4Predicate (if ((aa ^^^ ba) ||| (ab ^^^ bb)) &&& care = 0 then 1 else 0)
    | .wild =>
      let care := ~~~bb &&& g4Mask w
      if (aa ^^^ ba) &&& ~~~ab &&& care ≠ 0 then g4Predicate 0
      else g4Predicate (if ab &&& care ≠ 0 then 2 else 1)

/-! ## The conditional operator -/

/-- `llg_gmp_sv4_mux_wide`. -/
def llgGmpSv4MuxWide (a b : G4) : G4 :=
  let w := g4Maxw a b
  let s := a.isSigned && b.isSigned
  let aa := llgGmpSv4ExtendPlane w (some a.a) a.width s
  let ab := llgGmpSv4ExtendPlane w a.b a.width s
  let words := (range (g4Words w)).map fun i =>
    let u := (aa.getD i 0 ^^^ (b.spanA s).word i) ||| ab.getD i 0 ||| (b.spanB s).word i
    ((aa.getD i 0 &&& ~~~u) ||| u, u)
  llgGmpSv4Finish ⟨w, s, words.map Prod.fst, some (words.map Prod.snd)⟩

/-- `llg_gmp_sv4_mux`. -/
def llgGmpSv4Mux (sel a b : G4) : G4 :=
  let w := g4Maxw a b
  let s := a.isSigned && b.isSigned
  let t := g4Truth sel
  if t ≠ 2 then llgGmpSv4Resize (if t ≠ 0 then a else b) w s
  else if w > 64 then llgGmpSv4MuxWide a b
  else
    let aa := g4ExtendWord a.smallA a.width w s
    let ab := g4ExtendWord a.smallB a.width w s
    let ba := g4ExtendWord b.smallA b.width w s
    let bb := g4ExtendWord b.smallB b.width w s
    let unknown := (aa ^^^ ba) ||| ab ||| bb
    g4Small ((aa &&& ~~~unknown) ||| unknown) unknown w s

/-! ## Shifts -/

/-- `shift_plane`. -/
def shiftPlane (input : Words) (width count : ℕ) (right : Bool) (fill : BitVec 64) : Words :=
  let n := g4Words width
  let whole := count / 64
  let bits := count % 64
  let out := (range n).map fun i =>
    if right then
      let source := i + whole
      let low := if source < n then input.getD source 0 else fill
      let low := if source + 1 = n then low ||| (fill &&& ~~~g4Topmask width) else low
      let word := low >>> bits
      if bits ≠ 0 then
        let high := if source + 1 < n then input.getD (source + 1) 0 else fill
        let high := if source + 2 = n then high ||| (fill &&& ~~~g4Topmask width) else high
        word ||| (high <<< (64 - bits))
      else word
    else if i ≥ whole then
      let source := i - whole
      let word := input.getD source 0 <<< bits
      if bits ≠ 0 ∧ source ≠ 0 then word ||| (input.getD (source - 1) 0 >>> (64 - bits)) else word
    else 0
  maskTop out width

/-- The part of `g4_shift` for a value and a count in one word. -/
def g4ShiftSmall (v : G4) (sh : BitVec 64) (right arithmetic : Bool) : G4 :=
  let a := v.smallA
  let b := v.smallB
  let top := if v.width ≠ 0 then v.width - 1 else 0
  let fill := fun plane : BitVec 64 =>
    if right ∧ arithmetic ∧ v.isSigned ∧ v.width ≠ 0 ∧ (plane >>> top) &&& 1#64 ≠ 0 then
      BitVec.allOnes 64
    else 0#64
  if sh.toNat ≥ v.width then g4Small (fill a) (fill b) v.width v.isSigned
  else if sh = 0 then v
  else if right then
    let pad := ~~~g4Mask (v.width - sh.toNat)
    g4Small ((a >>> sh.toNat) ||| (fill a &&& pad)) ((b >>> sh.toNat) ||| (fill b &&& pad)) v.width v.isSigned
  else g4Small (a <<< sh.toNat) (b <<< sh.toNat) v.width v.isSigned

/-- `llg_gmp_sv4_state`. -/
def llgGmpSv4State (v : G4) (bit : ℕ) : ℕ :=
  if bit ≥ v.width then 2
  else
    let a := (v.a.getD (bit / 64) 0 >>> (bit % 64)) &&& 1#64
    let b := (v.wordsB.getD (bit / 64) 0 >>> (bit % 64)) &&& 1#64
    if b ≠ 0 then if a ≠ 0 then 2 else 3 else a.toNat

/-- `llg_gmp_sv4_shift_wide`. -/
def llgGmpSv4ShiftWide (value count : G4) (right arithmetic : Bool) : G4 :=
  if llgGmpSv4IsUnknown count then llgGmpSv4X value.width value.isSigned
  else
    let cn := g4Words count.width
    let oversized := ((count.a.take cn).drop 1).any (· ≠ 0)
    let shift := if cn ≠ 0 then count.a.headD 0 else 0
    if oversized ∨ shift.toNat ≥ value.width then
      let state :=
        if right ∧ arithmetic ∧ value.isSigned ∧ value.width ≠ 0 then llgGmpSv4State value (value.width - 1)
        else 0
      llgGmpSv4Fill state value.width value.isSigned
    else if value.width ≤ 64 then g4ShiftSmall value shift right arithmetic
    else if shift = 0 then value
    else
      let n := g4Words value.width
      let top := (value.width - 1) % 64
      let fill := fun plane : Words =>
        if right ∧ arithmetic ∧ value.isSigned ∧ (plane.getD (n - 1) 0 >>> top) &&& 1#64 ≠ 0 then
          BitVec.allOnes 64
        else 0#64
      llgGmpSv4Finish
        ⟨value.width, value.isSigned, shiftPlane value.a value.width shift.toNat right (fill value.a),
          value.b.map fun b => shiftPlane b value.width shift.toNat right (fill b)⟩

/-- `g4_shift`. -/
def g4Shift (v count : G4) (right arithmetic : Bool) : G4 :=
  if v.width > 64 ∨ count.width > 64 then llgGmpSv4ShiftWide v count right arithmetic
  else if count.smallB ≠ 0 then llgGmpSv4X v.width v.isSigned
  else g4ShiftSmall v count.smallA right arithmetic

/-! ## Reductions -/

/-- `g4_popcount`. -/
def g4Popcount (x : BitVec 64) : BitVec 64 :=
  let x := x - ((x >>> 1) &&& 0x5555555555555555#64)
  let x := (x &&& 0x3333333333333333#64) + ((x >>> 2) &&& 0x3333333333333333#64)
  let x := (x + (x >>> 4)) &&& 0x0f0f0f0f0f0f0f0f#64
  (x * 0x0101010101010101#64) >>> 56

/-- The operation code of `g4_reduce`, modulo 3. -/
inductive ReduceKind where
  | and | or | xor
deriving DecidableEq, Repr

/-- The last step of a reduction: the codes from 3 on complement a known result. -/
def reduceResult (invert : Bool) (t : ℕ) : G4 :=
  g4Predicate (if invert ∧ t ≠ 2 then if t = 0 then 1 else 0 else t)

/-- `llg_gmp_sv4_reduce_wide`; the loops over the words return at the first that decides. -/
def llgGmpSv4ReduceWide (v : G4) (kind : ReduceKind) (invert : Bool) : G4 :=
  let n := g4Words v.width
  let unknown := v.b.isSome
  let word := fun i => v.a.getD i 0
  let u := fun i => v.wordsB.getD i 0
  match kind with
  | .and =>
    if (range n).any fun i => ~~~word i &&& ~~~u i &&& wordMask v.width n i ≠ 0 then
      g4Predicate (if invert then 1 else 0)
    else reduceResult invert (if unknown then 2 else 1)
  | .or =>
    if (range n).any fun i => word i &&& ~~~u i ≠ 0 then g4Predicate (if invert then 0 else 1)
    else reduceResult invert (if unknown then 2 else 0)
  | .xor =>
    if unknown then g4Predicate 2
    else
      let parity := (range n).foldl (fun parity i => parity ^^^ (g4Popcount (word i) &&& 1#64)) 0#64
      reduceResult invert parity.toNat

/-- `g4_reduce`. -/
def g4Reduce (v : G4) (kind : ReduceKind) (invert : Bool) : G4 :=
  if v.width > 64 then llgGmpSv4ReduceWide v kind invert
  else
    let a := v.smallA
    let b := v.smallB
    reduceResult invert <|
      match kind with
      | .and => if ~~~a &&& ~~~b &&& g4Mask v.width ≠ 0 then 0 else if b ≠ 0 then 2 else 1
      | .or => if a &&& ~~~b ≠ 0 then 1 else if b ≠ 0 then 2 else 0
      | .xor => if b ≠ 0 then 2 else (g4Popcount a &&& 1#64).toNat

end Lapligence.Value
