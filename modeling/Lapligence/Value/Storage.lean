import Lapligence.Value.SelectionSpecs

/-!
# Writes in place

The functions that assign to a part of a value work on its storage.  A narrow value holds its words in
place; a wide one owns a block, which moves when its plane `b` is added or dropped.  Operands are passed by
value and borrow the block of their owner, so the source of an assignment may share the block of its target;
the functions then copy the source first.

`Slot.Updates` says what an operation on a target leaves: the value that the operation on values gives, and
everything else as it was.  `withSnapshot_updates` is the argument for shared storage, and
`selections_addressed` the result for all selections.
-/

namespace Lapligence.Value

open WordLists Constraints Elab Function Option

/-! ## Storage -/

/-- The words of an allocation: the plane `a`, and the plane `b` after it. -/
structure Planes where
  a : Words
  b : Option Words

/-- The allocated blocks, all below `next`. -/
structure Heap where
  block : ℕ → Option Planes
  next : ℕ

/-- `llg_gmp_sv4_t` in memory: the words in place, or the address of a block. -/
inductive Cell
  | small (v : G4)
  | wide (width : ℕ) (isSigned : Bool) (address : ℕ)

/-- The value of a cell. -/
def Heap.load (h : Heap) : Cell → G4
  | .small v => v
  | .wide width isSigned address =>
    match h.block address with
    | some planes => ⟨width, isSigned, planes.a, planes.b⟩
    | none => ⟨width, isSigned, [], none⟩

/-- The block of a cell. -/
def Cell.address : Cell → Option ℕ
  | .small _ => none
  | .wide _ _ address => some address

/-- A narrow value, or a wide one with an allocated block. -/
def Heap.Live (h : Heap) : Cell → Prop
  | .small v => v.width ≤ 64
  | .wide width _ address => 64 < width ∧ address < h.next ∧ (h.block address).isSome

/-- The cells have no block in common. -/
def Cell.Separate (c d : Cell) : Prop := ∀ p, c.address = some p → d.address ≠ some p

/-- A heap and the cell that an operation works on. -/
structure Slot where
  heap : Heap
  cell : Cell

namespace Slot

def value (s : Slot) : G4 := s.heap.load s.cell

/-- Words are written in place. -/
def put (s : Slot) (a : Words) (b : Option Words) : Slot :=
  match s.cell with
  | .small v => ⟨s.heap, .small { v with a := a, b := b }⟩
  | .wide _ _ address => ⟨{ s.heap with block := update s.heap.block address (some ⟨a, b⟩) }, s.cell⟩

/-- `realloc`: the words are in a new block, and the old one is free. -/
def realloc (s : Slot) (a : Words) (b : Option Words) : Slot :=
  match s.cell with
  | .small _ => s
  | .wide width isSigned address =>
    ⟨⟨update (update s.heap.block address none) s.heap.next (some ⟨a, b⟩), s.heap.next + 1⟩,
      .wide width isSigned s.heap.next⟩

/-- `llg_gmp_sv4_promote`. -/
def promote (s : Slot) : Slot :=
  if s.value.width ≤ 64 ∨ s.value.b.isSome then s
  else s.realloc s.value.a (some (List.replicate (g4Words s.value.width) 0))

/-- `llg_gmp_sv4_finish`. -/
def finish (s : Slot) : Slot :=
  let v := llgGmpSv4Finish s.value
  if s.value.b.isSome ∧ v.b.isNone then s.realloc v.a none else s.put v.a v.b

/-- Some bits of one word of both planes are replaced. -/
def putWords (s : Slot) (limb : ℕ) (mask a b : BitVec 64) : Slot :=
  s.put (putWord s.value.a limb mask a) (s.value.b.map fun plane => putWord plane limb mask b)

/-- The loop of `g4_copy_bits`. -/
def copyLoop (src : Cell) : ℕ → Slot → ℕ → ℕ → ℕ → Slot
  | 0, dst, _, _, _ => dst
  | fuel + 1, dst, dstBit, srcBit, count =>
    if count = 0 then dst
    else
      let shift := dstBit % 64
      let take := if 64 - shift > count then count else 64 - shift
      let a := g4RangeWord (dst.heap.load src).a srcBit take
      let b := g4RangeWord (dst.heap.load src).wordsB srcBit take
      copyLoop src fuel (dst.putWords (dstBit / 64) (g4Mask take <<< shift) (a <<< shift) (b <<< shift))
        (dstBit + take) (srcBit + take) (count - take)

/-- The loop of `g4_copy_reverse`. -/
def reverseLoop (src : Cell) : ℕ → Slot → ℕ → ℕ → ℕ → Slot
  | 0, dst, _, _, _ => dst
  | fuel + 1, dst, dstBit, high, count =>
    if count = 0 then dst
    else
      let shift := dstBit % 64
      let take := if 64 - shift > count then count else 64 - shift
      let high := high - take
      let a := g4ReverseWord (g4RangeWord (dst.heap.load src).a high take) >>> (64 - take)
      let b := g4ReverseWord (g4RangeWord (dst.heap.load src).wordsB high take) >>> (64 - take)
      reverseLoop src fuel (dst.putWords (dstBit / 64) (g4Mask take <<< shift) (a <<< shift) (b <<< shift))
        (dstBit + take) high (count - take)

/-- The loop of `g4_fill_bits`. -/
def fillLoop (state : ℕ) : ℕ → Slot → ℕ → ℕ → Slot
  | 0, dst, _, _ => dst
  | fuel + 1, dst, bit, count =>
    if count = 0 then dst
    else
      let shift := bit % 64
      let take := if 64 - shift > count then count else 64 - shift
      let mask := g4Mask take <<< shift
      fillLoop state fuel
        (dst.putWords (bit / 64) mask (if state = 1 ∨ state = 2 then mask else 0) (if state ≥ 2 then mask else 0))
        (bit + take) (count - take)

/-- The destination of a copy gets its plane `b` if the interval has an X or a Z. -/
def promoteFor (dst : Slot) (src : Cell) (srcBit count : ℕ) : Slot :=
  if dst.value.width > 64 ∧ dst.value.b.isNone ∧ (dst.heap.load src).b.isSome ∧
      scanRange (dst.heap.load src).wordsB count srcBit count then
    dst.promote
  else dst

/-- `g4_copy_bits`. -/
def copyBits (dst : Slot) (dstBit : ℕ) (src : Cell) (srcBit count : ℕ) : Slot :=
  copyLoop src count (dst.promoteFor src srcBit count) dstBit srcBit count

/-- `g4_copy_reverse`. -/
def copyReverse (dst : Slot) (dstBit : ℕ) (src : Cell) (srcBit count : ℕ) : Slot :=
  reverseLoop src count (dst.promoteFor src srcBit count) dstBit (srcBit + count) count

/-- `g4_fill_bits`. -/
def fillBits (dst : Slot) (bit count state : ℕ) : Slot :=
  fillLoop state count
    (if count ≠ 0 ∧ state ≥ 2 ∧ dst.value.width > 64 ∧ dst.value.b.isNone then dst.promote else dst) bit count

/-- `g4_copy_window`. -/
def copyWindow (dst : Slot) (dstBit : ℤ) (src : Cell) (srcBit : ℤ) (count : ℕ) : Slot :=
  let width := dst.value.width
  let srcWidth := (dst.heap.load src).width
  if count = 0 ∨ dstBit ≥ width ∨ dstBit ≤ -count then dst
  else
    let skip := if dstBit < 0 then (-dstBit).toNat else 0
    let start := (dstBit + skip).toNat
    let length := min (count - skip) (width - start)
    if srcBit ≥ srcWidth ∨ srcBit ≤ -count then dst.fillBits start length 2
    else
      let srcBit := srcBit + skip
      let missing := if srcBit < 0 then min (-srcBit).toNat length else 0
      let dst := if srcBit < 0 then dst.fillBits start missing 2 else dst
      let start := start + missing
      let length := length - missing
      let srcBit := srcBit + missing
      if length = 0 then dst
      else
        let available := if srcBit < srcWidth then srcWidth - srcBit.toNat else 0
        let take := min length available
        (dst.copyBits start src srcBit.toNat take).fillBits (start + take) (length - take) 2

/-- `g4_reverse_window`. -/
def reverseWindow (dst : Slot) (dstBit : ℤ) (src : Cell) (srcHigh : ℤ) (count : ℕ) : Slot :=
  let width := dst.value.width
  let srcWidth := (dst.heap.load src).width
  if count = 0 ∨ dstBit ≥ width ∨ dstBit ≤ -count then dst
  else
    let skip := if dstBit < 0 then (-dstBit).toNat else 0
    let start := (dstBit + skip).toNat
    let length := min (count - skip) (width - start)
    if srcHigh < 0 ∨ srcHigh ≥ srcWidth + count then dst.fillBits start length 2
    else
      let srcHigh := srcHigh - skip
      let missing := if srcHigh ≥ srcWidth then min (srcHigh - srcWidth + 1).toNat length else 0
      let dst := if srcHigh ≥ srcWidth then dst.fillBits start missing 2 else dst
      let start := start + missing
      let length := length - missing
      let srcHigh := srcHigh - missing
      let available := if srcHigh ≥ 0 then srcHigh.toNat + 1 else 0
      let take := min length available
      let dst := if take ≠ 0 then dst.copyReverse start src (srcHigh + 1 - take).toNat take else dst
      dst.fillBits (start + take) (length - take) 2

/-- `g4_alias`: two wide values in one block. -/
def aliases : Cell → Cell → Bool
  | .wide _ _ p, .wide _ _ q => p = q
  | _, _ => false

/-- `llg_gmp_sv4_clone`. -/
def clone (h : Heap) : Cell → Slot
  | .small v => ⟨h, .small v⟩
  | .wide width isSigned address =>
    ⟨⟨update h.block h.next (h.block address), h.next + 1⟩, .wide width isSigned h.next⟩

/-- `llg_gmp_sv4_destroy`. -/
def destroy (h : Heap) : Cell → Heap
  | .small _ => h
  | .wide _ _ address => { h with block := update h.block address none }

/-- An assignment that works on a copy of a source in the target's block. -/
def withSnapshot (dst : Slot) (source : Cell) (assign : Slot → Cell → Slot) : Slot :=
  if aliases dst.cell source then
    let snapshot := clone dst.heap source
    let out := assign ⟨snapshot.heap, dst.cell⟩ snapshot.cell
    ⟨destroy out.heap snapshot.cell, out.cell⟩
  else assign dst source

/-- A narrow value is written. -/
def store (dst : Slot) (v : G4) : Slot := dst.put v.a v.b

/-- `llg_gmp_sv4_set_ab_wide`. -/
def setAbWide (dst : Slot) (word : ℕ) (a b : BitVec 64) : Slot :=
  let mask := wordMask dst.value.width (g4Words dst.value.width) word
  let a := a &&& mask
  let b := b &&& mask
  let dst := if b ≠ 0 then dst.promote else dst
  (dst.put (dst.value.a.set word a) (dst.value.b.map (·.set word b))).finish

/-- `llg_gmp_sv4_set_vpi_word`. -/
def setVpiWord (dst : Slot) (word : ℕ) (aval bval : BitVec 64) : Slot :=
  if word ≥ g4Words dst.value.width then dst
  else if dst.value.width ≤ 64 then
    dst.put [aval &&& g4Mask dst.value.width] (some [bval &&& g4Mask dst.value.width])
  else dst.setAbWide word aval bval

/-- `llg_gmp_sv4_set_state`. -/
def setState (dst : Slot) (position state : ℕ) : Option Slot :=
  if state > 3 then none
  else if position ≥ dst.value.width then some dst
  else
    let mask := 1#64 <<< (position % 64)
    let aval := dst.value.a.getD (position / 64) 0
    let bval := dst.value.wordsB.getD (position / 64) 0
    some (dst.setVpiWord (position / 64)
      ((aval &&& ~~~mask) ||| if state = 1 ∨ state = 2 then mask else 0)
      ((bval &&& ~~~mask) ||| if state ≥ 2 then mask else 0))

/-- `llg_gmp_sv4_bit_select_set`. -/
def bitSelectSet (dst : Slot) (index : ℕ) (source : Cell) : Option Slot :=
  if index < dst.value.width then dst.setState index (llgGmpSv4State (dst.heap.load source) 0) else some dst

/-- `llg_gmp_sv4_part_select_set_wide`. -/
def partSelectSetWide (dst : Slot) (left right : ℤ) (source : Cell) (width : ℕ) : Slot :=
  dst.withSnapshot source fun dst source =>
    let value := dst.heap.load source
    if left ≥ right then (dst.copyWindow right source ((value.width : ℤ) - width) width).finish
    else (dst.reverseWindow left source ((value.width : ℤ) - 1) width).finish

/-- `llg_gmp_sv4_part_select_set`. -/
def partSelectSet (dst : Slot) (left right : ℤ) (source : Cell) : Option Slot :=
  if dst.value.width > 64 ∨ (dst.heap.load source).width > 64 then
    (g4SelectionPartWidth left right).map (dst.partSelectSetWide left right source)
  else (llgGmpSv4PartSelectSet dst.value left right (dst.heap.load source)).map dst.store

/-- The end of the indexed assignments: unchanged without a position. -/
def indexedSetWide (dst : Slot) (low : Option ℤ) (width : ℕ) (source : Cell) : Slot :=
  match low with
  | some low => dst.withSnapshot source fun dst source => (dst.copyWindow low source 0 width).finish
  | none => dst

/-- `llg_gmp_sv4_idx_part_select_set`. -/
def idxPartSelectSet (dst : Slot) (base width : ℕ) (negative : Bool) (source : Cell) : Option Slot :=
  if dst.value.width > 64 ∨ (dst.heap.load source).width > 64 then
    (g4SelectionWidth width).map fun width =>
      dst.indexedSetWide (scalarLow base width negative) width source
  else
    (llgGmpSv4IdxPartSelectSet dst.value base width negative (dst.heap.load source)).map dst.store

/-- `llg_gmp_sv4_idx_part_select_set_value`. -/
def idxPartSelectSetValue (dst : Slot) (base : G4) (width : ℕ) (negative : Bool) (source : Cell) :
    Option Slot :=
  if dst.value.width > 64 ∨ (dst.heap.load source).width > 64 ∨ base.width > 64 then
    (g4SelectionWidth width).map fun width => dst.indexedSetWide (valueLow base width negative) width source
  else
    (llgGmpSv4IdxPartSelectSetValue dst.value base width negative (dst.heap.load source)).map dst.store

/-- An assignment to a selection of the value in a slot. -/
def assign (dst : Slot) (source : Cell) : Selection → Option Slot
  | .bit index => dst.bitSelectSet index source
  | .part left right => dst.partSelectSet left right source
  | .indexed base width negative => dst.idxPartSelectSet base width negative source
  | .indexedValue base width negative => dst.idxPartSelectSetValue base width negative source

/-! ## What an operation leaves -/

/-- The slot holds `v`, and every other cell is as it was. -/
structure Updates (s out : Slot) (v : G4) : Prop where
  live : out.heap.Live out.cell
  value : out.value = v
  other : ∀ d, s.heap.Live d → s.cell.Separate d →
    out.heap.Live d ∧ out.heap.load d = s.heap.load d ∧ out.cell.Separate d
  next_le : s.heap.next ≤ out.heap.next

section Operations

variable {s t u : Slot} {v w : G4} {src : Cell}

lemma Updates.refl (hlive : s.heap.Live s.cell) : s.Updates s s.value :=
  ⟨hlive, rfl, fun _ hd hsep => ⟨hd, rfl, hsep⟩, le_rfl⟩

lemma Updates.trans (h : s.Updates t v) (h' : t.Updates u w) : s.Updates u w where
  live := h'.live
  value := h'.value
  other d hd hsep := by
    obtain ⟨hlive, hload, hsep'⟩ := h.other d hd hsep
    obtain ⟨hlive', hload', hsep''⟩ := h'.other d hlive hsep'
    exact ⟨hlive', hload'.trans hload, hsep''⟩
  next_le := h.next_le.trans h'.next_le

lemma load_wide (heap : Heap) (width : ℕ) (isSigned : Bool) (address : ℕ) :
    (heap.load (.wide width isSigned address)).width = width ∧
      (heap.load (.wide width isSigned address)).isSigned = isSigned := by
  simp only [Heap.load]
  cases heap.block address <;> exact ⟨rfl, rfl⟩

/-- A cell with another block does not see a change of one block. -/
lemma other_of_update (heap' : Heap) {heap : Heap} {address : ℕ} {d : Cell} (hd : heap.Live d)
    (hnext : heap.next ≤ heap'.next) (hne : d.address ≠ some address)
    (hblock : ∀ p < heap.next, p ≠ address → heap'.block p = heap.block p) :
    heap'.Live d ∧ heap'.load d = heap.load d := by
  cases d with
  | small => exact ⟨hd, rfl⟩
  | wide width isSigned p =>
    obtain ⟨hwide, hlt, hsome⟩ := hd
    have hp := hblock p hlt fun heq => hne (congrArg some heq)
    refine ⟨⟨hwide, hlt.trans_le hnext, ?_⟩, ?_⟩
    · rwa [hp]
    · simp only [Heap.load, hp]

variable (hlive : s.heap.Live s.cell)
include hlive

lemma put_updates (a : Words) (b : Option Words) :
    s.Updates (s.put a b) ⟨s.value.width, s.value.isSigned, a, b⟩ := by
  obtain ⟨heap, cell⟩ := s
  cases cell with
  | small => exact ⟨hlive, rfl, fun d hd _ => ⟨hd, rfl, fun _ h => nomatch h⟩, le_rfl⟩
  | wide width isSigned address =>
    obtain ⟨hwide, hlt, -⟩ := hlive
    obtain ⟨hwidth, hsigned⟩ := load_wide heap width isSigned address
    refine ⟨⟨hwide, hlt, by simp [put]⟩, ?_, fun d hd hsep => ?_, le_rfl⟩
    · simp only [value, hwidth, hsigned]
      simp [put, Heap.load]
    · obtain ⟨hlive', hload⟩ := other_of_update ⟨update heap.block address (some ⟨a, b⟩), heap.next⟩ hd le_rfl
        (hsep address rfl) fun p _ hp => update_of_ne hp _ _
      exact ⟨hlive', hload, hsep⟩

lemma realloc_updates (hwide : 64 < s.value.width) (a : Words)
    (b : Option Words) : s.Updates (s.realloc a b) ⟨s.value.width, s.value.isSigned, a, b⟩ := by
  obtain ⟨heap, cell⟩ := s
  cases cell with
  | small => exact absurd hlive (Nat.not_le.2 hwide)
  | wide width isSigned address =>
    obtain ⟨hwide, -, -⟩ := hlive
    obtain ⟨hwidth, hsigned⟩ := load_wide heap width isSigned address
    refine ⟨⟨hwide, Nat.lt_succ_self _, by simp [realloc]⟩, ?_, fun d hd hsep => ?_, Nat.le_succ _⟩
    · simp only [value, hwidth, hsigned]
      simp [realloc, Heap.load]
    · have hblock : ∀ p < heap.next, p ≠ address →
          update (update heap.block address none) heap.next (some ⟨a, b⟩) p = heap.block p :=
        fun p hp hne => by rw [update_of_ne hp.ne, update_of_ne hne]
      obtain ⟨hlive', hload⟩ := other_of_update ⟨_, heap.next + 1⟩ hd (Nat.le_succ _) (hsep address rfl) hblock
      refine ⟨hlive', hload, fun p hp hdp => ?_⟩
      -- the new block is not among the old ones
      obtain rfl : heap.next = p := some.inj hp
      cases d with
      | small => exact nomatch hdp
      | wide => exact hd.2.1.ne (some.inj hdp)

lemma promote_updates : s.Updates s.promote (llgGmpSv4Promote s.value) := by
  rw [promote, llgGmpSv4Promote]
  split_ifs with h
  · exact .refl hlive
  · exact realloc_updates hlive (by omega) _ _

lemma finish_updates {width : ℕ} (hshape : s.value.Shaped width) :
    s.Updates s.finish (llgGmpSv4Finish s.value) := by
  have hfinish := hshape.yields_finish
  have hvalue : llgGmpSv4Finish s.value =
      ⟨s.value.width, s.value.isSigned, (llgGmpSv4Finish s.value).a, (llgGmpSv4Finish s.value).b⟩ := by
    rw [hshape.width, ← hfinish.width, ← hfinish.isSigned]
  simp only [finish]
  split_ifs with hdrop
  · have hnone := isNone_iff_eq_none.1 hdrop.2
    rw [hvalue, hnone]
    refine realloc_updates hlive ?_ _ _
    rw [hshape.width, ← hfinish.width]
    exact hfinish.canonical.shaped.wide_of_none hnone
  · rw [hvalue]
    exact put_updates hlive _ _

omit hlive in
lemma Updates.finish (h : s.Updates t v) {width : ℕ} (hshape : v.Shaped width) :
    s.Updates t.finish (llgGmpSv4Finish v) := by
  obtain rfl := h.value
  exact h.trans (finish_updates h.live hshape)

/-- The value with the words of both planes replaced. -/
lemma putWords_updates (limb : ℕ) (mask a b : BitVec 64) :
    s.Updates (s.putWords limb mask a b)
      ⟨s.value.width, s.value.isSigned, putWord s.value.a limb mask a,
        s.value.b.map fun plane => putWord plane limb mask b⟩ :=
  put_updates hlive _ _

lemma fillLoop_updates (state fuel bit count : ℕ) :
    s.Updates (fillLoop state fuel s bit count)
      ⟨s.value.width, s.value.isSigned, fillPlane (state = 1 ∨ state = 2) fuel s.value.a bit count,
        s.value.b.map fun b => fillPlane (state ≥ 2) fuel b bit count⟩ := by
  induction fuel generalizing s bit count with
  | zero => simpa [fillLoop, fillPlane] using Updates.refl hlive
  | succ fuel ih =>
    simp only [fillLoop, fillPlane]
    by_cases hcount : count = 0
    · simpa [hcount] using Updates.refl hlive
    · simp only [if_neg hcount]
      generalize (if 64 - bit % 64 > count then count else 64 - bit % 64) = take
      have hput := putWords_updates hlive (bit / 64) (g4Mask take <<< (bit % 64))
        (if state = 1 ∨ state = 2 then g4Mask take <<< (bit % 64) else 0)
        (if state ≥ 2 then g4Mask take <<< (bit % 64) else 0)
      have hrest := hput.trans (ih hput.live (bit + take) (count - take))
      rw [hput.value] at hrest
      simpa [map_map, comp_def] using hrest

lemma copyLoop_updates (hsrc : s.heap.Live src) (hsep : s.cell.Separate src)
    (fuel dstBit srcBit count : ℕ) :
    s.Updates (copyLoop src fuel s dstBit srcBit count)
      ⟨s.value.width, s.value.isSigned,
        copyPlane (some (s.heap.load src).a) fuel s.value.a dstBit srcBit count,
        s.value.b.map fun b => copyPlane (some (s.heap.load src).wordsB) fuel b dstBit srcBit count⟩ := by
  induction fuel generalizing s dstBit srcBit count with
  | zero => simpa [copyLoop, copyPlane] using Updates.refl hlive
  | succ fuel ih =>
    simp only [copyLoop, copyPlane]
    by_cases hcount : count = 0
    · simpa [hcount] using Updates.refl hlive
    · simp only [if_neg hcount, getD_some]
      generalize (if 64 - dstBit % 64 > count then count else 64 - dstBit % 64) = take
      have hput := putWords_updates hlive (dstBit / 64) (g4Mask take <<< (dstBit % 64))
        (g4RangeWord (s.heap.load src).a srcBit take <<< (dstBit % 64))
        (g4RangeWord (s.heap.load src).wordsB srcBit take <<< (dstBit % 64))
      obtain ⟨hsrc', hload, hsep'⟩ := hput.other src hsrc hsep
      have hrest := hput.trans (ih hput.live hsrc' hsep' (dstBit + take) (srcBit + take) (count - take))
      rw [hput.value, hload] at hrest
      simpa [map_map, comp_def] using hrest

lemma reverseLoop_updates (hsrc : s.heap.Live src)
    (hsep : s.cell.Separate src) (fuel dstBit high count : ℕ) :
    s.Updates (reverseLoop src fuel s dstBit high count)
      ⟨s.value.width, s.value.isSigned,
        copyReversePlane (s.heap.load src).a fuel s.value.a dstBit high count,
        s.value.b.map fun b => copyReversePlane (s.heap.load src).wordsB fuel b dstBit high count⟩ := by
  induction fuel generalizing s dstBit high count with
  | zero => simpa [reverseLoop, copyReversePlane] using Updates.refl hlive
  | succ fuel ih =>
    simp only [reverseLoop, copyReversePlane]
    by_cases hcount : count = 0
    · simpa [hcount] using Updates.refl hlive
    · simp only [if_neg hcount]
      generalize (if 64 - dstBit % 64 > count then count else 64 - dstBit % 64) = take
      have hput := putWords_updates hlive (dstBit / 64) (g4Mask take <<< (dstBit % 64))
        ((g4ReverseWord (g4RangeWord (s.heap.load src).a (high - take) take) >>> (64 - take)) <<< (dstBit % 64))
        ((g4ReverseWord (g4RangeWord (s.heap.load src).wordsB (high - take) take) >>> (64 - take)) <<<
          (dstBit % 64))
      obtain ⟨hsrc', hload, hsep'⟩ := hput.other src hsrc hsep
      have hrest := hput.trans (ih hput.live hsrc' hsep' (dstBit + take) (high - take) (count - take))
      rw [hput.value, hload] at hrest
      simpa [map_map, comp_def] using hrest

end Operations

/-! ## Windows in place -/

section Windows

variable {s t : Slot} {v : G4} {src : Cell}

lemma Updates.fillBits (h : s.Updates t v) (bit count state : ℕ) :
    s.Updates (t.fillBits bit count state) (g4FillBits v bit count state) := by
  obtain rfl := h.value
  simp only [Slot.fillBits, g4FillBits]
  split_ifs
  · have hpromote := promote_updates h.live
    have hfill := hpromote.trans (fillLoop_updates hpromote.live state count bit count)
    rw [hpromote.value] at hfill
    exact h.trans hfill
  · exact h.trans (fillLoop_updates h.live state count bit count)

lemma Updates.promoteFor (h : s.Updates t v) (hsrc : s.heap.Live src) (hsep : s.cell.Separate src)
    (srcBit count : ℕ) :
    s.Updates (t.promoteFor src srcBit count) (Value.promoteFor v (s.heap.load src) srcBit count) := by
  obtain rfl := h.value
  rw [Slot.promoteFor, Value.promoteFor, (h.other src hsrc hsep).2.1]
  split_ifs
  · exact h.trans (promote_updates h.live)
  · exact h

lemma Updates.copyBits (h : s.Updates t v) (hsrc : s.heap.Live src) (hsep : s.cell.Separate src)
    (dstBit srcBit count : ℕ) :
    s.Updates (t.copyBits dstBit src srcBit count)
      (g4CopyBits v dstBit (s.heap.load src) srcBit count) := by
  have hpromote := h.promoteFor hsrc hsep srcBit count
  obtain ⟨hsrc', hload, hsep'⟩ := hpromote.other src hsrc hsep
  have hcopy := hpromote.trans (copyLoop_updates hpromote.live hsrc' hsep' count dstBit srcBit count)
  rwa [hpromote.value, hload] at hcopy

lemma Updates.copyReverse (h : s.Updates t v) (hsrc : s.heap.Live src) (hsep : s.cell.Separate src)
    (dstBit srcBit count : ℕ) :
    s.Updates (t.copyReverse dstBit src srcBit count)
      (g4CopyReverse v dstBit (s.heap.load src) srcBit count) := by
  have hpromote := h.promoteFor hsrc hsep srcBit count
  obtain ⟨hsrc', hload, hsep'⟩ := hpromote.other src hsrc hsep
  have hcopy := hpromote.trans
    (reverseLoop_updates hpromote.live hsrc' hsep' count dstBit (srcBit + count) count)
  rwa [hpromote.value, hload] at hcopy

lemma Updates.ite {u : Slot} {w : G4} {p : Prop} [Decidable p] (h : s.Updates t v) (h' : s.Updates u w) :
    s.Updates (if p then t else u) (if p then v else w) := by
  split_ifs
  · exact h
  · exact h'

lemma copyWindow_updates (hlive : s.heap.Live s.cell) (hsrc : s.heap.Live src)
    (hsep : s.cell.Separate src) (dstBit srcBit : ℤ) (count : ℕ) :
    s.Updates (s.copyWindow dstBit src srcBit count)
      (g4CopyWindow s.value dstBit (s.heap.load src) srcBit count) := by
  have hself := Updates.refl hlive
  rw [Slot.copyWindow, g4CopyWindow]
  refine .ite hself (.ite (hself.fillBits _ _ _) (.ite ?_ ?_))
  · exact .ite (hself.fillBits _ _ _) hself
  · exact ((Updates.ite (hself.fillBits _ _ _) hself).copyBits hsrc hsep _ _ _).fillBits _ _ _

lemma reverseWindow_updates (hlive : s.heap.Live s.cell) (hsrc : s.heap.Live src)
    (hsep : s.cell.Separate src) (dstBit srcHigh : ℤ) (count : ℕ) :
    s.Updates (s.reverseWindow dstBit src srcHigh count)
      (g4ReverseWindow s.value dstBit (s.heap.load src) srcHigh count) := by
  have hself := Updates.refl hlive
  have hfirst : ∀ (p : Prop) [Decidable p] (start missing : ℕ),
      s.Updates (if p then s.fillBits start missing 2 else s)
        (if p then g4FillBits s.value start missing 2 else s.value) :=
    fun p _ start missing => .ite (hself.fillBits start missing 2) hself
  rw [Slot.reverseWindow, g4ReverseWindow]
  refine .ite hself (.ite (hself.fillBits _ _ _) (Updates.fillBits (.ite ?_ (hfirst _ _ _)) _ _ _))
  exact (hfirst _ _ _).copyReverse hsrc hsep _ _ _

end Windows

/-! ## Shared storage -/

/-- What an assignment from a separate source leaves. -/
def Assigning (assign : Slot → Cell → Slot) (f : G4 → G4 → G4) : Prop :=
  ∀ (s : Slot) (src : Cell), s.heap.Live s.cell → s.heap.Live src → s.cell.Separate src →
    s.value.Canonical → s.Updates (assign s src) (f s.value (s.heap.load src))

lemma separate_of_not_aliases {c d : Cell} (h : aliases c d = false) : c.Separate d := by
  intro p hc hd
  cases c with
  | small => exact nomatch hc
  | wide width isSigned q =>
    cases d with
    | small => exact nomatch hd
    | wide width' isSigned' r =>
      have hqr : q = r := (some.inj hc).trans (some.inj hd).symm
      exact of_decide_eq_false h hqr

/-- An assignment with a copy of a shared source leaves what it leaves from a separate one. -/
lemma withSnapshot_updates {assign : Slot → Cell → Slot} {f : G4 → G4 → G4} (h : Assigning assign f)
    {dst : Slot} {source : Cell} (hdst : dst.heap.Live dst.cell) (hsource : dst.heap.Live source)
    (hcanonical : dst.value.Canonical) :
    dst.Updates (dst.withSnapshot source assign) (f dst.value (dst.heap.load source)) := by
  rw [withSnapshot]
  by_cases hshared : aliases dst.cell source = true
  · rw [if_pos hshared]
    obtain ⟨heap, cell⟩ := dst
    cases source with
    | small => cases cell <;> exact absurd hshared (by simp [aliases])
    | wide width isSigned address =>
      obtain ⟨hwide, -, hsome⟩ := hsource
      simp only [clone]
      generalize hcopy : (⟨update heap.block heap.next (heap.block address), heap.next + 1⟩ : Heap) = copied
      have hnext : copied.next = heap.next + 1 := by rw [← hcopy]
      -- all other cells are as they were, and none has the new block
      have hkept : ∀ d, heap.Live d → copied.Live d ∧ copied.load d = heap.load d ∧
          d.Separate (.wide width isSigned heap.next) := by
        intro d hd
        have hne : d.address ≠ some heap.next := by
          cases d with
          | small => exact nofun
          | wide => exact fun hp => hd.2.1.ne (some.inj hp)
        obtain ⟨hlive, hload⟩ := other_of_update copied hd (by omega) hne fun p _ hp => by
          rw [← hcopy]
          exact update_of_ne hp _ _
        exact ⟨hlive, hload, fun p hp hp' => hne (hp.trans hp'.symm)⟩
      have hsnapshot : copied.Live (.wide width isSigned heap.next) ∧
          copied.load (.wide width isSigned heap.next) = heap.load (.wide width isSigned address) := by
        subst hcopy
        refine ⟨⟨hwide, Nat.lt_succ_self _, ?_⟩, ?_⟩
        · simpa using hsome
        · simp [Heap.load]
      obtain ⟨hlive, hload, hsep⟩ := hkept cell hdst
      have hvalue : Slot.value ⟨copied, cell⟩ = Slot.value ⟨heap, cell⟩ := hload
      have hout := h ⟨copied, cell⟩ _ hlive hsnapshot.1 hsep (hvalue ▸ hcanonical)
      rw [hvalue, hsnapshot.2] at hout
      generalize assign ⟨copied, cell⟩ (.wide width isSigned heap.next) = out at hout ⊢
      have hdestroy : ∀ d, out.heap.Live d → d.address ≠ some heap.next →
          (destroy out.heap (.wide width isSigned heap.next)).Live d ∧
            (destroy out.heap (.wide width isSigned heap.next)).load d = out.heap.load d :=
        fun d hd hne => other_of_update _ hd le_rfl hne fun p _ hp => update_of_ne hp _ _
      have hfree : out.cell.address ≠ some heap.next :=
        fun hp => (hout.other _ hsnapshot.1 hsep).2.2 _ hp rfl
      obtain ⟨hlive', hload'⟩ := hdestroy _ hout.live hfree
      refine ⟨hlive', hload'.trans hout.value, fun d hd hsep' => ?_, ?_⟩
      · obtain ⟨hdlive, hdload, hdsep⟩ := hkept d hd
        obtain ⟨hdlive', hdload', hdsep'⟩ := hout.other d hdlive hsep'
        obtain ⟨hdlive'', hdload''⟩ := hdestroy d hdlive' fun hp => hdsep _ hp rfl
        exact ⟨hdlive'', hdload''.trans (hdload'.trans hdload), hdsep'⟩
      · have hle : copied.next ≤ out.heap.next := hout.next_le
        rw [hnext] at hle
        exact (Nat.le_succ _).trans hle
  · rw [if_neg hshared]
    exact h dst source hdst hsource (separate_of_not_aliases (Bool.eq_false_iff.2 hshared)) hcanonical

/-! ## Assignments to selections -/

section Assignments

variable {dst : Slot} {source : Cell}

lemma copyWindow_assigning (low : ℤ) (sourceLow : G4 → ℤ) (width : ℕ) :
    Assigning (fun dst source => (dst.copyWindow low source (sourceLow (dst.heap.load source)) width).finish)
      fun target value => llgGmpSv4Finish (g4CopyWindow target low value (sourceLow value) width) :=
  fun _ _ hlive hsrc hsep hcanonical =>
    (copyWindow_updates hlive hsrc hsep low _ width).finish (hcanonical.shaped.copyWindow low _ _ width)

lemma reverseWindow_assigning (low : ℤ) (sourceHigh : G4 → ℤ) (width : ℕ) :
    Assigning (fun dst source => (dst.reverseWindow low source (sourceHigh (dst.heap.load source)) width).finish)
      fun target value => llgGmpSv4Finish (g4ReverseWindow target low value (sourceHigh value) width) :=
  fun _ _ hlive hsrc hsep hcanonical =>
    (reverseWindow_updates hlive hsrc hsep low _ width).finish (hcanonical.shaped.reverseWindow low _ _ width)

/-- An assignment that works in place on wide values, and otherwise stores the result. -/
lemma wide_or_store {p : Prop} [Decidable p] {count : Option ℕ} {wide : ℕ → Slot} {value : ℕ → G4}
    {narrow : ℕ → Option G4} {v : G4}
    (hv : (count.bind fun width => if p then some (value width) else narrow width) = some v)
    (hwide : ∀ width, dst.Updates (wide width) (value width)) (hstore : dst.Updates (dst.store v) v) :
    ∃ out, (if p then count.map wide
      else (count.bind fun width => if p then some (value width) else narrow width).map dst.store) = some out ∧
        dst.Updates out v := by
  by_cases hp : p
  · obtain ⟨width, rfl, hvalue⟩ := bind_eq_some_iff.1 hv
    rw [if_pos hp] at hvalue ⊢
    exact ⟨_, rfl, some.inj hvalue ▸ hwide width⟩
  · rw [hv, if_neg hp]
    exact ⟨_, rfl, hstore⟩

variable (hdst : dst.heap.Live dst.cell) (hsource : dst.heap.Live source)
  (hcanonical : dst.value.Canonical)

include hdst

/-- A narrow result is put in place of the target. -/
lemma store_updates {v : G4} (hwidth : v.width = dst.value.width)
    (hsigned : v.isSigned = dst.value.isSigned) : dst.Updates (dst.store v) v := by
  have h := put_updates hdst v.a v.b
  rwa [← hwidth, ← hsigned] at h

include hcanonical

lemma setVpiWord_updates (word : ℕ) (aval bval : BitVec 64) :
    dst.Updates (dst.setVpiWord word aval bval) (llgGmpSv4SetVpiWord dst.value word aval bval) := by
  rw [setVpiWord, llgGmpSv4SetVpiWord]
  refine .ite (.refl hdst) ?_
  by_cases hw : dst.value.width ≤ 64
  · rw [if_pos hw, if_pos hw]
    exact put_updates hdst _ _
  · rw [if_neg hw, if_neg hw, setAbWide, llgGmpSv4SetAbWide]
    generalize bval &&& wordMask dst.value.width (g4Words dst.value.width) word = b
    generalize aval &&& wordMask dst.value.width (g4Words dst.value.width) word = a
    have hpromote : dst.Updates (if b ≠ 0 then dst.promote else dst)
        (if b ≠ 0 then llgGmpSv4Promote dst.value else dst.value) :=
      .ite (promote_updates hdst) (.refl hdst)
    have hshape : (if b ≠ 0 then llgGmpSv4Promote dst.value else dst.value).Shaped dst.value.width :=
      .ite hcanonical.shaped.promote hcanonical.shaped
    rw [← hpromote.value] at hshape
    simp only [← hpromote.value]
    exact (hpromote.trans (put_updates hpromote.live _ _)).finish (hshape.setWord (by omega) word a b)

lemma setState_updates {position state : ℕ} {v : G4}
    (hv : llgGmpSv4SetState dst.value position state = some v) :
    ∃ out, dst.setState position state = some out ∧ dst.Updates out v := by
  rw [llgGmpSv4SetState] at hv
  rw [setState]
  by_cases hstate : state > 3
  · rw [if_pos hstate] at hv
    cases hv
  rw [if_neg hstate] at hv ⊢
  by_cases hout : position ≥ dst.value.width
  · rw [if_pos hout] at hv ⊢
    exact ⟨_, rfl, some.inj hv ▸ .refl hdst⟩
  · rw [if_neg hout] at hv ⊢
    exact ⟨_, rfl, some.inj hv ▸ setVpiWord_updates hdst hcanonical _ _ _⟩

include hsource

lemma partSelectSetWide_updates (left right : ℤ) (width : ℕ) :
    dst.Updates (dst.partSelectSetWide left right source width)
      (llgGmpSv4PartSelectSetWide dst.value left right (dst.heap.load source) width) := by
  rw [partSelectSetWide, llgGmpSv4PartSelectSetWide]
  by_cases hdown : left ≥ right
  · simp only [if_pos hdown]
    exact withSnapshot_updates (copyWindow_assigning right (fun value => (value.width : ℤ) - width) width)
      hdst hsource hcanonical
  · simp only [if_neg hdown]
    exact withSnapshot_updates (reverseWindow_assigning left (fun value => (value.width : ℤ) - 1) width)
      hdst hsource hcanonical

lemma indexedSetWide_updates (low : Option ℤ) (width : ℕ) :
    dst.Updates (dst.indexedSetWide low width source)
      (indexedWrite dst.value low width (dst.heap.load source)) := by
  cases low with
  | none => exact .refl hdst
  | some low => exact withSnapshot_updates (copyWindow_assigning low (fun _ => 0) width) hdst hsource hcanonical

/-- The assignments on storage give what the assignments on values give. -/
lemma assign_updates {sel : Selection} {v : G4}
    (hv : sel.write dst.value (dst.heap.load source) = some v) (hwidth : v.width = dst.value.width)
    (hsigned : v.isSigned = dst.value.isSigned) :
    ∃ out, dst.assign source sel = some out ∧ dst.Updates out v := by
  have hstore := store_updates hdst hwidth hsigned
  cases sel with
  | bit index =>
    simp only [Selection.write, llgGmpSv4BitSelectSet] at hv
    simp only [assign, bitSelectSet]
    by_cases hin : index < dst.value.width
    · rw [if_pos hin] at hv ⊢
      exact setState_updates hdst hcanonical hv
    · rw [if_neg hin] at hv ⊢
      exact ⟨_, rfl, some.inj hv ▸ .refl hdst⟩
  | part left right =>
    exact wide_or_store hv (partSelectSetWide_updates hdst hsource hcanonical left right) hstore
  | indexed base width negative | indexedValue base width negative =>
    exact wide_or_store hv (fun _ => indexedSetWide_updates hdst hsource hcanonical _ _) hstore

end Assignments

end Slot

/-- A selection that is too wide is an error. -/
lemma selection_unsupported {sel : Selection} (h : llgGmpSupportedWidthLimit ≤ sel.width) :
    (∀ source, sel.read source = none) ∧ (∀ dst source, sel.write dst source = none) ∧
      ∀ (dst : Slot) (source : Cell), dst.assign source sel = none := by
  have hwidth : g4SelectionWidth sel.width = none := if_pos h
  cases sel with
  | bit => exact absurd h (by simp [Selection.width, llgGmpSupportedWidthLimit])
  | part left right =>
    have hpart : g4SelectionPartWidth left right = none :=
      (g4SelectionPartWidth_eq left right).trans (if_neg (Nat.not_lt.2 h))
    simp [Selection.read, Selection.write, Slot.assign, Slot.partSelectSet, llgGmpSv4PartSelect, llgGmpSv4PartSelectSet, hpart]
  | indexed =>
    simp only [Selection.width] at hwidth
    simp [Selection.read, Selection.write, Slot.assign, Slot.idxPartSelectSet, llgGmpSv4IdxPartSelect,
      llgGmpSv4IdxPartSelectSet, hwidth]
  | indexedValue =>
    simp only [Selection.width] at hwidth
    simp [Selection.read, Selection.write, Slot.assign, Slot.idxPartSelectSetValue,
      llgGmpSv4IdxPartSelectValue, llgGmpSv4IdxPartSelectSetValue, hwidth]

/-- The target and the source of an assignment: stored values, which may share a block. -/
structure Operands (dst : Slot) (source : Cell) : Prop where
  live : dst.heap.Live dst.cell
  source_live : dst.heap.Live source
  canonical : dst.value.Canonical
  source_canonical : (dst.heap.load source).Canonical
  supported : dst.value.width < llgGmpSupportedWidthLimit

/-- A selection reads the addressed bits, X outside the value.  An assignment replaces the addressed bits
that lie in the target by those of the source before it, and nothing else changes: no other bit, and no cell
in another block.  The source may share the block of the target.  Selections beyond the supported width
are errors. -/
theorem selections_addressed (sel : Selection) (hsel : sel.Canonical) :
    (sel.width < llgGmpSupportedWidthLimit →
      (∀ source : G4, source.Canonical → source.width < llgGmpSupportedWidthLimit →
        ∃ out, sel.read source = some out ∧ out.Canonical ∧ out.width = sel.width ∧
          ∀ i < sel.width, out.stateAt i = (sel.position i).elim .x source.bitAt) ∧
      ∀ (dst : Slot) (source : Cell), Operands dst source →
        ∃ out, dst.assign source sel = some out ∧
          sel.Assigns dst.value (dst.heap.load source) out.value ∧
          ∀ d, dst.heap.Live d → dst.cell.Separate d → out.heap.load d = dst.heap.load d) ∧
    (llgGmpSupportedWidthLimit ≤ sel.width →
      (∀ source, sel.read source = none) ∧
        ∀ (dst : Slot) (source : Cell), dst.assign source sel = none) := by
  refine ⟨fun hwidth => ⟨?_, ?_⟩, fun h => (selection_unsupported h).imp_right And.right⟩
  · intro source hsource hsupported
    obtain ⟨out, hout, hyields⟩ := selection_reads hsource hsupported hsel hwidth
    exact ⟨out, hout, hyields.canonical, hyields.width, hyields.stateAt⟩
  · intro dst source h
    obtain ⟨v, hv, -, hwrites⟩ := selection_writes h.canonical h.source_canonical hsel hwidth
    have hassigns := hwrites h.supported
    obtain ⟨out, hout, hupdates⟩ := Slot.assign_updates h.live h.source_live h.canonical hv hassigns.width
      hassigns.isSigned
    exact ⟨out, hout, hupdates.value ▸ hassigns, fun d hd hsep => (hupdates.other d hd hsep).2.1⟩

/-- A wide value in a heap of its own. -/
def sharedSlot : Slot := ⟨⟨fun _ => some ⟨[5, 1], none⟩, 1⟩, .wide 70 false 0⟩

lemma sharedSlot_operands : Operands sharedSlot sharedSlot.cell :=
  have hvalue : sharedSlot.value.Canonical :=
    ⟨⟨by decide, by decide, by decide⟩, by rintro _ ⟨⟩, by decide⟩
  ⟨⟨by decide, by decide, rfl⟩, ⟨by decide, by decide, rfl⟩, hvalue, hvalue, by decide⟩

/-- A value is assigned to an ascending part of itself that lies partly outside it. -/
theorem selections_addressed_shared :
    ∃ out, sharedSlot.assign sharedSlot.cell (.part (-3) 66) = some out ∧
      (Selection.part (-3) 66).Assigns sharedSlot.value sharedSlot.value out.value :=
  have h := (selections_addressed (.part (-3) 66) trivial).1 (by decide)
  have ⟨out, hout, hassigns, _⟩ := h.2 sharedSlot sharedSlot.cell sharedSlot_operands
  ⟨out, hout, hassigns⟩

end Lapligence.Value
