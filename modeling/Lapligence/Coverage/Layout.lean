import Lapligence.Coverage.Points
import Lapligence.Framework.Fallible

/-!
# Layouts of coverpoint bins

`llg_cov_build_layout` turns the declared bins of a coverpoint into counters and into segments: maximal
ranges of keys whose values count in the same bins.  `llg_cov_hit` looks the key of a sampled value
up in the segments.
-/

namespace Lapligence.Coverage

open Value

/-! ## Pieces and segments -/

/-- `llg_cov_entry_t`. -/
structure LlgCovEntry where
  base : ℕ
  pos : ℕ
  div : ℕ
  last : ℕ
  decl : ℕ
deriving DecidableEq, Repr

namespace LlgCovEntry

/-- The counter that an entry gives for the value at `offset` from the place of its first value. -/
def bin (entry : LlgCovEntry) (offset : ℕ) : ℕ :=
  if entry.div ≠ 0 then
    let element := (entry.pos + offset) / entry.div
    entry.base + if element < entry.last then element else entry.last
  else entry.base

/-- `llg_cov_entry_bins`. -/
def llgCovEntryBins (entry : LlgCovEntry) (lo hi : ℕ) : Span :=
  ⟨entry.bin 0, entry.bin (hi - lo)⟩

end LlgCovEntry

/-- `llg_cov_piece_t`. -/
structure LlgCovPiece where
  span : Span
  entry : LlgCovEntry
  role : BinKind
deriving DecidableEq, Repr

/-- `llg_cov_seg_t`, with its entries in place of their indices. -/
structure LlgCovSeg where
  span : Span
  entries : List LlgCovEntry
  removed : Bool
deriving DecidableEq, Repr

/-- What the C library's `qsort` does with `llg_cov_piece_order`: pieces that begin at the same key
come in any order. -/
structure PieceSort where
  qsort : List LlgCovPiece → List LlgCovPiece
  perm : ∀ pieces, (qsort pieces).Perm pieces
  sorted : ∀ pieces, (qsort pieces).Pairwise fun a b => a.span.lo ≤ b.span.lo

/-- `struct llg_cov_layout`. -/
structure LlgCovLayout where
  nBins : ℕ
  nAuto : ℕ
  defaultBin : Option ℕ
  defaultDecl : Option ℕ
  defaultIllegal : Bool
  segments : List LlgCovSeg
  /-- The spans `cover` with their `cover_rank`. -/
  cover : List (Span × ℕ)
  nCoverable : ℕ
  declBase : List ℕ
  declSize : List ℕ
deriving DecidableEq, Repr

/-! ## The declarations -/

/-- `llg_cov_add_bins`. -/
def llgCovAddBins (total more : ℕ) : Except String ℕ :=
  if more = 0 ∨ uint64Max - total < more then .error "coverage bins" else .ok (total + more)

/-- `llg_cov_span_size`: zero stands for the full 64-bit range. -/
def llgCovSpanSize (span : Span) : ℕ :=
  (span.hi - span.lo + 1) % 2 ^ 64

/-- The number of values of the spans of an array, which must fit in 64 bits. -/
def countValues (what : String) : ℕ → List Span → Except String ℕ
  | values, [] => .ok values
  | values, span :: spans =>
    let size := llgCovSpanSize span
    if size = 0 ∨ uint64Max - values < size then .error what
    else countValues what (values + size) spans

/-- The pieces of an array: each continues the count of values where the one before ends. -/
def arrayPieces (entry : LlgCovEntry) (spans : List Span) : List LlgCovPiece :=
  (Span.offsets entry.pos spans).map fun p => ⟨p.1, { entry with pos := p.2 }, .bins⟩

/-- What the loop over the declarations has built so far. -/
structure LayoutDecls where
  nBins : ℕ
  pieces : List LlgCovPiece
  defaultBin : Option ℕ
  defaultDecl : Option ℕ
  defaultIllegal : Bool
  declBase : List ℕ
  declSize : List ℕ
deriving DecidableEq, Repr

namespace LayoutDecls

/-- The pieces and the number of elements of a declaration are added. -/
def add (st : LayoutDecls) (pieces : List LlgCovPiece) (size nBins : ℕ) : LayoutDecls :=
  { st with
    nBins
    pieces := st.pieces ++ pieces
    declBase := st.declBase ++ [st.nBins]
    declSize := st.declSize ++ [size] }

end LayoutDecls

namespace LlgCovPoint

variable (point : LlgCovPoint) (slots : ℕ → LlgCovSlotValue)

/-- The key ranges of a declaration's items. -/
def binSpans (bin : LlgCovBin) : List Span :=
  bin.items.filterMap fun item => (point.llgCovItemKeys slots item).1

/-- One declaration of the first loop of `llg_cov_build_layout`, with index `d`. -/
def declStep (st : LayoutDecls) (d : ℕ) (bin : LlgCovBin) : Except String LayoutDecls :=
  let entry : LlgCovEntry := ⟨st.nBins, 0, 0, 0, d⟩
  let spans := point.binSpans slots bin
  match bin.kind, bin.shape with
  | .default, _ => do
    let nBins ← llgCovAddBins st.nBins 1
    return { st.add [] 0 nBins with
      defaultDecl := some d, defaultIllegal := false, defaultBin := some st.nBins }
  | .illegalDefault, _ =>
    return { st.add [] 0 st.nBins with defaultDecl := some d, defaultIllegal := true }
  | .bins, .count count =>
    let count := (llgCovBinCount slots count).1
    if count = 0 then return st.add [] 0 st.nBins
    else do
      let values ← countValues "coverage bin values" 0 spans
      let entry := { entry with div := if count ≤ values then values / count else 1, last := count - 1 }
      let nBins ← llgCovAddBins st.nBins count
      return st.add (arrayPieces entry spans) count nBins
  | .bins, .perValue => do
    let spans := Span.merge uint64Max spans
    let pos ← countValues "coverage bins" 0 spans
    let nBins ← if pos ≠ 0 then llgCovAddBins st.nBins pos else pure st.nBins
    return st.add (arrayPieces { entry with div := 1, last := uint64Max } spans) pos nBins
  | .bins, .scalar => do
    let spans := Span.merge uint64Max spans
    let nBins ← llgCovAddBins st.nBins 1
    return st.add (spans.map fun span => ⟨span, entry, .bins⟩) 1 nBins
  | kind, _ =>
    let spans := Span.merge uint64Max spans
    return st.add (spans.map fun span => ⟨span, entry, kind⟩) 0 st.nBins

/-- The declarations from index `d` on. -/
def declLoop : LayoutDecls → ℕ → List LlgCovBin → Except String LayoutDecls
  | st, _, [] => .ok st
  | st, d, bin :: bins => do
    let st ← point.declStep slots st d bin
    declLoop st (d + 1) bins

end LlgCovPoint

/-! ## Cutting the pieces into segments -/

/-- The loop that drops repetitions of the `last` kept number. -/
def uniqueFrom (last : ℕ) : List ℕ → List ℕ
  | [] => []
  | b :: bounds => if last = b then uniqueFrom last bounds else b :: uniqueFrom b bounds

/-- The bounds of the pieces, sorted and without repetitions. -/
def pieceBounds (pieces : List LlgCovPiece) : List ℕ :=
  let bounds := pieces.flatMap fun piece =>
    piece.span.lo :: if piece.span.hi ≠ uint64Max then [piece.span.hi + 1] else []
  match bounds.mergeSort fun a b => a ≤ b with
  | [] => []
  | b :: bounds => b :: uniqueFrom b bounds

/-- The segment that the `active` pieces share. -/
def makeSegment (lo hi : ℕ) (active : List LlgCovPiece) : LlgCovSeg :=
  let removed := active.any fun piece => piece.role ≠ .bins
  let kept := active.filter fun piece =>
    if removed then piece.role = .illegal else piece.role = .bins
  { span := ⟨lo, hi⟩
    removed
    entries := kept.map fun piece =>
      { piece.entry with pos := piece.entry.pos + (lo - piece.span.lo) } }

/-- The loop over the bounds: `active` are the pieces that have begun, `rest` those to come. -/
def segmentLoop : List ℕ → List LlgCovPiece → List LlgCovPiece → List LlgCovSeg
  | [], _, _ => []
  | lo :: bounds, active, rest =>
    let active := (active.filter fun piece => lo ≤ piece.span.hi) ++
      rest.takeWhile fun piece => piece.span.lo = lo
    let rest := rest.dropWhile fun piece => piece.span.lo = lo
    if active = [] then segmentLoop bounds active rest
    else
      let hi := match bounds with
        | [] => uint64Max
        | next :: _ => next - 1
      makeSegment lo hi active :: segmentLoop bounds active rest

/-! ## Coverable bins -/

namespace LlgCovPoint

variable (point : LlgCovPoint)

/-- `llg_cov_auto_spans`: the spans that it pushes. -/
def llgCovAutoSpans (nAuto lo hi : ℕ) : Except String (List Span) :=
  if point.kind = .auto then do
    let first ← point.llgCovAutoBin nAuto lo
    let last ← point.llgCovAutoBin nAuto hi
    return [⟨first, last⟩]
  else
    let first := lowerBound (fun mid => point.keys[mid]?.any fun key => key < lo)
      point.keys.length 0 point.keys.length
    let last := first + ((point.keys.drop first).takeWhile fun key => key ≤ hi).length
    .ok (if first < last then [⟨first, last - 1⟩] else [])

/-- The automatic bins of the keys from `key` up to a removed segment. -/
def autoBefore (nAuto key : ℕ) (segment : LlgCovSeg) : Except String (List Span) :=
  if key < segment.span.lo then point.llgCovAutoSpans nAuto key (segment.span.lo - 1) else .ok []

/-- The loop over the removed segments: the automatic bins of the keys from `key` on that lie in
none. -/
def autoCover (nAuto : ℕ) : ℕ → List LlgCovSeg → Except String (List Span)
  | key, [] => point.llgCovAutoSpans nAuto key point.llgCovMask
  | key, segment :: segments =>
    if !segment.removed then autoCover nAuto key segments
    else do
      let before ← point.autoBefore nAuto key segment
      if point.llgCovMask ≤ segment.span.hi then return before
      else return before ++ (← autoCover nAuto (segment.span.hi + 1) segments)

end LlgCovPoint

/-- The spans of the entries of segments that are not removed. -/
def segmentCover (segments : List LlgCovSeg) : List Span :=
  segments.flatMap fun segment =>
    if segment.removed then []
    else segment.entries.map fun entry => entry.llgCovEntryBins segment.span.lo segment.span.hi

/-- The spans with their ranks. -/
def coverRanks : ℕ → List Span → List (Span × ℕ)
  | _, [] => []
  | rank, span :: spans => (span, rank) :: coverRanks (rank + (span.hi - span.lo + 1)) spans

/-- The number of automatic bins, whose counters come first. -/
def LlgCovPoint.nAuto (point : LlgCovPoint) (autoBinMax : BitVec 64) : ℕ :=
  match point.kind with
  | .auto => point.llgCovAutoBins autoBinMax
  | .enum => point.keys.length
  | .explicit => 0

/-- The spans of the automatic bins that some value outside the removed segments hits. -/
def LlgCovPoint.autoBins (point : LlgCovPoint) (nAuto : ℕ) (segments : List LlgCovSeg) :
    Except String (List Span) :=
  if point.kind = .explicit then .ok [] else point.autoCover nAuto 0 segments

/-- `llg_cov_build_layout`.  Messages of allocation failures are errors. -/
def llgCovBuildLayout (sort : PieceSort) (point : LlgCovPoint) (slots : ℕ → LlgCovSlotValue)
    (autoBinMax : BitVec 64) : Except String LlgCovLayout := do
  let nAuto := point.nAuto autoBinMax
  let decls ← point.declLoop slots ⟨nAuto, [], none, none, false, [], []⟩ 0 point.bins
  let pieces := sort.qsort decls.pieces
  let segments := segmentLoop (pieceBounds pieces) [] pieces
  if uint32Max < (segments.map fun segment => segment.entries.length).sum ∨
      uint32Max < segments.length then throw "coverage segments"
  else do
    let autoSpans ← point.autoBins nAuto segments
    let cover := Span.merge uint64Max (segmentCover segments ++ autoSpans)
    if uint32Max < cover.length then throw "coverage bins"
    else return {
      nBins := decls.nBins
      nAuto
      defaultBin := decls.defaultBin
      defaultDecl := decls.defaultDecl
      defaultIllegal := decls.defaultIllegal
      segments
      cover := coverRanks 0 cover
      nCoverable := (cover.map fun span => span.hi - span.lo + 1).sum
      declBase := decls.declBase
      declSize := decls.declSize }

/-! ## Samples -/

/-- `llg_cov_cover_rank`: none for the result -1. -/
def llgCovCoverRank (layout : LlgCovLayout) (bin : ℕ) : Option ℕ :=
  (Span.find Prod.fst layout.cover bin).map fun cover => cover.2 + (bin - cover.1.lo)

/-- `llg_cov_find`. -/
def llgCovFind (layout : LlgCovLayout) (key : ℕ) : Option LlgCovSeg :=
  Span.find LlgCovSeg.span layout.segments key

/-- `llg_cov_guard`. -/
def llgCovGuard (point : LlgCovPoint) (decl : ℕ) (guards : Option (ℕ → Bool)) : Bool :=
  match point.bins[decl]?.bind LlgCovBin.guard, guards with
  | some guard, some guards => guards guard
  | _, _ => true

/-- What a sample does: the counters it increments, in order, and the illegal declaration it
reports. -/
structure LlgCovHits where
  counted : List ℕ
  illegal : Option ℕ
deriving DecidableEq, Repr

/-- `llg_cov_hit_segment`. -/
def llgCovHitSegment (point : LlgCovPoint) (segment : LlgCovSeg) (key : ℕ)
    (guards : Option (ℕ → Bool)) : LlgCovHits :=
  let entries := segment.entries.filter fun entry => llgCovGuard point entry.decl guards
  if segment.removed then ⟨[], entries.head?.map LlgCovEntry.decl⟩
  else ⟨entries.map fun entry => entry.bin (key - segment.span.lo), none⟩

/-- `llg_cov_hit_default`. -/
def llgCovHitDefault (point : LlgCovPoint) (layout : LlgCovLayout)
    (guards : Option (ℕ → Bool)) : LlgCovHits :=
  match layout.defaultDecl with
  | none => ⟨[], none⟩
  | some decl =>
    if !llgCovGuard point decl guards then ⟨[], none⟩
    else if layout.defaultIllegal then ⟨[], some decl⟩
    else ⟨layout.defaultBin.toList, none⟩

/-- The part of `llg_cov_hit` that follows the key of a known value. -/
def llgCovHitKey (point : LlgCovPoint) (layout : LlgCovLayout) (key : ℕ)
    (guards : Option (ℕ → Bool)) : Except String LlgCovHits :=
  match llgCovFind layout key with
  | some segment => .ok (llgCovHitSegment point segment key guards)
  | none =>
    match point.kind with
    | .auto => do
      let bin ← point.llgCovAutoBin layout.nAuto key
      return ⟨[bin], none⟩
    | .enum =>
      let lo := lowerBound (fun mid => point.keys[mid]?.any fun k => k < key)
        point.keys.length 0 point.keys.length
      .ok ⟨if point.keys[lo]? = some key then [lo] else [], none⟩
    | .explicit => .ok (llgCovHitDefault point layout guards)

/-- `llg_cov_hit` for a coverpoint without transition bins that is not stopped. -/
def llgCovHit (point : LlgCovPoint) (layout : LlgCovLayout) (value : Sv4)
    (guards : Option (ℕ → Bool)) : Except String LlgCovHits :=
  if sv4IsUnknown value then .ok ⟨[], none⟩
  else llgCovHitKey point layout (point.llgCovKey (llgSv4Word value 0).toNat) guards

end Lapligence.Coverage
