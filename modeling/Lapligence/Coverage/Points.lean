import Lapligence.Framework.Spans
import Lapligence.Value.Sv4

/-!
# Coverpoints and their declared bins

A coverpoint (`llg_cov_point_t`) declares bins, whose values are items: keys that the compiler has
resolved, or bounds read from the arguments of the covergroup when an instance is made.  Keys order
the values of the coverpoint; for a signed coverpoint the sign bit is flipped.
-/

namespace Lapligence.Coverage

open Value

/-! ## The declarations -/

/-- `UINT64_MAX`. -/
def uint64Max : ℕ := 2 ^ 64 - 1

/-- `UINT32_MAX`. -/
def uint32Max : ℕ := 2 ^ 32 - 1

/-- `LLG_COV_POINT_*`. -/
inductive PointKind
  | auto
  | enum
  | explicit
deriving DecidableEq, Repr

/-- `LLG_COV_BIN_*`. -/
inductive BinKind
  | bins
  | ignore
  | illegal
  | default
  | illegalDefault
deriving DecidableEq, Repr

/-- A bound of an item that is resolved when the instance is ready (`LLG_COV_BOUND_SLOT`, `_MIN`
and `_MAX`). -/
inductive Bound
  | slot (index : ℕ)
  | min
  | max
deriving DecidableEq, Repr

/-- `llg_cov_item_t`.  A static item has two bounds of the kind `LLG_COV_BOUND_KEY`, other items
have none. -/
inductive LlgCovItem
  | keys (span : Span)
  | bounds (lo hi : Bound)
deriving DecidableEq, Repr

/-- The size of a bins array `b[N]`: a constant or a slot. -/
inductive BinCount
  | const (count : ℕ)
  | slot (index : ℕ)
deriving DecidableEq, Repr

/-- `LLG_COV_SHAPE_*`. -/
inductive BinShape
  | scalar
  | perValue
  | count (count : BinCount)
deriving DecidableEq, Repr

/-- `llg_cov_bin_t`, with its items in place of their indices. -/
structure LlgCovBin where
  kind : BinKind
  shape : BinShape
  guard : Option ℕ
  items : List LlgCovItem
deriving DecidableEq, Repr

/-- `llg_cov_point_t`: what the value bins depend on. -/
structure LlgCovPoint where
  width : ℕ
  signed : Bool
  kind : PointKind
  keys : List ℕ
  bins : List LlgCovBin
deriving DecidableEq, Repr

/-- `llg_cov_slot_value_t`. -/
structure LlgCovSlotValue where
  raw : BitVec 64
  signedValue : Bool
  unknown : Bool
deriving DecidableEq, Repr

namespace LlgCovPoint

variable (point : LlgCovPoint)

/-! ## Keys -/

/-- `llg_cov_mask`. -/
def llgCovMask : ℕ :=
  if 64 ≤ point.width then uint64Max else 2 ^ point.width - 1

/-- `llg_cov_key`. -/
def llgCovKey (raw : ℕ) : ℕ :=
  let key := raw &&& point.llgCovMask
  if point.signed then key ^^^ 2 ^ (point.width - 1) else key

/-- `llg_cov_type_min`.  Numbers with a sign and a magnitude are integers here. -/
def llgCovTypeMin : ℤ :=
  if point.signed then -2 ^ (point.width - 1) else 0

/-- `llg_cov_type_max`. -/
def llgCovTypeMax : ℤ :=
  if point.signed then (point.llgCovMask / 2 : ℕ) else point.llgCovMask

/-- `llg_cov_num_key`. -/
def llgCovNumKey (value : ℤ) : ℕ :=
  point.llgCovKey (value % 2 ^ 64).toNat

/-- `llg_cov_slot_num`. -/
def llgCovSlotNum (slot : LlgCovSlotValue) : ℤ :=
  if slot.signedValue && slot.raw.msb then slot.raw.toInt else slot.raw.toNat

/-- A bound of an item, none for a slot with unknown bits. -/
def boundNum (slots : ℕ → LlgCovSlotValue) : Bound → Option ℤ
  | .slot index =>
    if (slots index).unknown then none else some (llgCovSlotNum (slots index))
  | .min => some point.llgCovTypeMin
  | .max => some point.llgCovTypeMax

/-- `llg_cov_item_keys`: the keys, none for an item that does not participate, and the warning. -/
def llgCovItemKeys (slots : ℕ → LlgCovSlotValue) : LlgCovItem → Option Span × Option String
  | .keys span => (some span, none)
  | .bounds loBound hiBound =>
    match point.boundNum slots loBound, point.boundNum slots hiBound with
    | some boundLo, some boundHi =>
      let lo := if boundLo < point.llgCovTypeMin then point.llgCovTypeMin else boundLo
      let hi := if point.llgCovTypeMax < boundHi then point.llgCovTypeMax else boundHi
      if boundHi < boundLo ∨ hi < lo then
        (none, some "value is outside the coverpoint type and is ignored")
      else
        (some ⟨point.llgCovNumKey lo, point.llgCovNumKey hi⟩,
          if lo ≠ boundLo ∨ hi ≠ boundHi then
            some "range is limited to the values of the coverpoint type"
          else none)
    | _, _ => (none, some "value has X or Z bits and is ignored")

/-- `llg_cov_bin_count`: zero when the size is not a positive value, with the error reported. -/
def llgCovBinCount (slots : ℕ → LlgCovSlotValue) : BinCount → ℕ × Option String
  | .const count => (count, none)
  | .slot index =>
    let value := llgCovSlotNum (slots index)
    if (slots index).unknown ∨ value < 0 ∨ value = 0 then
      (0, some "the number of bins is not a positive value")
    else (value.toNat, none)

/-! ## Automatic bins -/

/-- `llg_cov_auto_bins`; the option is a signed 64-bit number. -/
def llgCovAutoBins (autoBinMax : BitVec 64) : ℕ :=
  let limit := if autoBinMax.toInt < 1 then 1 else autoBinMax.toInt.toNat
  if point.width < 64 ∧ 2 ^ point.width ≤ limit then 2 ^ point.width else limit

/-- The `span` of `llg_cov_auto_bin`, a 64-bit number. -/
def autoSpan (nBins : ℕ) : ℕ :=
  if 64 ≤ point.width then
    let span := uint64Max / nBins
    if uint64Max % nBins = nBins - 1 then (span + 1) % 2 ^ 64 else span
  else 2 ^ point.width / nBins

/-- `llg_cov_auto_bin`; the division by `span` traps when that is zero. -/
def llgCovAutoBin (nBins key : ℕ) : Except String ℕ :=
  let span := point.autoSpan nBins
  if span = 0 then .error "division by zero"
  else
    let bin := key / span
    .ok (if nBins ≤ bin then nBins - 1 else bin)

end LlgCovPoint

end Lapligence.Coverage
