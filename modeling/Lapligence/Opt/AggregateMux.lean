import Lapligence.Elab.ValueSpecs

/-!
# Conditionals on unpacked arrays and records

A conditional expression whose condition is unknown merges its two arms leaf by leaf: a leaf that is known to
be equal in both arms is kept, and every other one becomes its default.  This module has the folding of such
conditionals on constants (`opt/passes/folding.rs`) and the marking of the leaves of a type
(`codegen/lowering/expressions/conditionals.rs`).

`Leaf` and `mergedAt` say what the merge is for: the payload is a row of leaves, the lowest bits first.
`foldArrayMux_eq` and `foldStructMux_eq` say that the folding computes it, and `testBit_recordLeafStarts` that
the mask of a type marks its leaves, also those of nested arrays and records.
-/

namespace Lapligence.Opt

open Elab Elab.Value WordLists List

/-! ## Folding -/

/-- `slice.chunks_exact(stride)`. -/
def chunksExact {α : Type} (stride : ℕ) (l : List α) : List (List α) :=
  (range (l.length / stride)).map fun k => (l.drop (k * stride)).take stride

/-- Two bits are known and equal. -/
def knownEqualBits (a b : Bit) : Bool := a = b ∧ (a = .zero ∨ a = .one)

/-- `fold_array_mux`; an operand that is not a packed constant is `none`. -/
def foldArrayMux (sel a b default : Option Elab.Value) : Option Elab.Value := do
  let selector ← sel
  if Bit.one ∈ selector.bits then a
  else if ¬selector.isUnknown then b
  else
    let a ← a
    let b ← b
    let default ← default
    let stride := default.width
    if stride = 0 ∨ a.width ≠ b.width ∨ a.width % stride ≠ 0 then none
    else
      let bits := (zip (chunksExact stride a.bits) (chunksExact stride b.bits)).flatMap
        fun (left, right) =>
          if (zip left right).all fun (a, b) => knownEqualBits a b then left else default.bits
      return fromBits bits false

/-- The next start of a leaf after `start`, or the end of the period. -/
def nextStart (starts : Elab.Value) (period start : ℕ) : ℕ :=
  ((range period).find? fun index => start < index ∧ starts.bitLsb index = .one).getD period

/-- The leaves of one period, the lowest bits first. -/
def foldPeriod (a b default starts : Elab.Value) (period base : ℕ) : ℕ → ℕ → List Bit
  | 0, _ => []
  | fuel + 1, start =>
    if start < period then
      let last := nextStart starts period start
      let leaf := range' start (last - start)
      let equal := leaf.all fun index => knownEqualBits (a.bitLsb (base + index)) (b.bitLsb (base + index))
      leaf.map (fun index => if equal then a.bitLsb (base + index) else default.bitLsb index) ++
        foldPeriod a b default starts period base fuel last
    else []

/-- `fold_struct_mux`. -/
def foldStructMux (sel a b default starts : Option Elab.Value) : Option Elab.Value := do
  let selector ← sel
  if Bit.one ∈ selector.bits then a
  else if ¬selector.isUnknown then b
  else
    let a ← a
    let b ← b
    let default ← default
    let starts ← starts
    let period := default.width
    if period = 0 ∨ starts.width ≠ period ∨ a.width ≠ b.width ∨ a.width % period ≠ 0 then none
    else
      let bits := (range (a.width / period)).flatMap fun k =>
        foldPeriod a b default starts period (k * period) period 0
      return fromBits bits.reverse false

/-! ## Leaves -/

/-- A leaf: its width and its default, by the position in the leaf. -/
structure Leaf where
  width : ℕ
  default : ℕ → Bit
  width_pos : 0 < width

/-- The width of a row of leaves. -/
def rowWidth (leaves : List Leaf) : ℕ := (leaves.map Leaf.width).sum

/-- Whether a leaf starts at a position of a row. -/
def startAt : List Leaf → ℕ → Bool
  | [], _ => false
  | leaf :: leaves, i => if i < leaf.width then i = 0 else startAt leaves (i - leaf.width)

/-- The defaults of a row. -/
def defaultAt : List Leaf → ℕ → Bit
  | [], _ => .x
  | leaf :: leaves, i => if i < leaf.width then leaf.default i else defaultAt leaves (i - leaf.width)

/-- The bits from `low` on are known and the same in two payloads. -/
def KnownEqual (a b : ℕ → Bit) (low width : ℕ) : Prop :=
  ∀ j < width, a (low + j) = b (low + j) ∧ (a (low + j)).isUnknown = false

instance (a b : ℕ → Bit) (low width : ℕ) : Decidable (KnownEqual a b low width) :=
  inferInstanceAs (Decidable (∀ j < width, _))

/-- The merge of two payloads from `low` on, by the position in the row. -/
def mergedAt (a b : ℕ → Bit) : List Leaf → ℕ → ℕ → Bit
  | [], _, _ => .x
  | leaf :: leaves, low, i =>
    if i < leaf.width then if KnownEqual a b low leaf.width then a (low + i) else leaf.default i
    else mergedAt a b leaves (low + leaf.width) (i - leaf.width)

/-- The merge of payloads that repeat a row. -/
def mergedPeriods (a b : ℕ → Bit) (leaves : List Leaf) (i : ℕ) : Bit :=
  mergedAt a b leaves (i / rowWidth leaves * rowWidth leaves) (i % rowWidth leaves)

section Leaves

variable {leaf : Leaf} {leaves : List Leaf} {a b : ℕ → Bit} {low i : ℕ}

@[simp] lemma rowWidth_nil : rowWidth [] = 0 := rfl

@[simp] lemma rowWidth_cons : rowWidth (leaf :: leaves) = leaf.width + rowWidth leaves := rfl

lemma rowWidth_append (before after : List Leaf) :
    rowWidth (before ++ after) = rowWidth before + rowWidth after := by
  simp [rowWidth]

lemma rowWidth_replicate (count : ℕ) (row : List Leaf) :
    rowWidth (replicate count row).flatten = count * rowWidth row := by
  induction count with
  | zero => rw [zero_mul]; rfl
  | succ count ih =>
    rw [replicate_succ, flatten_cons, rowWidth_append, ih, Nat.succ_mul, add_comm]

lemma length_le_rowWidth (leaves : List Leaf) : leaves.length ≤ rowWidth leaves := by
  induction leaves with
  | nil => exact le_rfl
  | cons leaf =>
    have hpos := leaf.width_pos
    rw [length_cons, rowWidth_cons]
    omega

lemma startAt_append (before after : List Leaf) (i : ℕ) :
    startAt (before ++ after) i =
      if i < rowWidth before then startAt before i else startAt after (i - rowWidth before) := by
  induction before generalizing i with
  | nil => rfl
  | cons leaf before ih =>
    rw [cons_append, startAt, startAt, ih, rowWidth_cons]
    by_cases hleaf : i < leaf.width
    · rw [if_pos hleaf, if_pos hleaf, if_pos (by omega)]
    · rw [if_neg hleaf, if_neg hleaf, Nat.sub_sub]
      by_cases hin : i - leaf.width < rowWidth before
      · rw [if_pos hin, if_pos (by omega)]
      · rw [if_neg hin, if_neg (by omega)]

lemma startAt_of_le (h : rowWidth leaves ≤ i) : startAt leaves i = false := by
  induction leaves generalizing i with
  | nil => rfl
  | cons leaf leaves ih =>
    rw [rowWidth_cons] at h
    rw [startAt, if_neg (by omega), ih (by omega)]

/-- A row that is not empty starts with a leaf. -/
lemma startAt_zero (h : 0 < rowWidth leaves) : startAt leaves 0 = true := by
  cases leaves with
  | nil => exact absurd h (lt_irrefl 0)
  | cons leaf => rw [startAt, if_pos leaf.width_pos, decide_eq_true rfl]

/-- Each leaf is kept or replaced as a whole. -/
lemma mergedAt_leaf (a b : ℕ → Bit) (before after : List Leaf) (leaf : Leaf) (low : ℕ) {j : ℕ}
    (hj : j < leaf.width) :
    mergedAt a b (before ++ leaf :: after) low (rowWidth before + j) =
      if KnownEqual a b (low + rowWidth before) leaf.width then a (low + rowWidth before + j)
      else leaf.default j := by
  induction before generalizing low with
  | nil =>
    rw [nil_append, rowWidth_nil, zero_add, add_zero, mergedAt, if_pos hj]
  | cons first before ih =>
    rw [cons_append, mergedAt, rowWidth_cons, if_neg (by omega),
      show first.width + rowWidth before + j - first.width = rowWidth before + j by omega, ih,
      add_assoc low]

/-- The merge reads only the bits of its row. -/
lemma mergedAt_congr {a' b' : ℕ → Bit} (h : ∀ i < low + rowWidth leaves, a i = a' i ∧ b i = b' i)
    (hi : i < rowWidth leaves) : mergedAt a b leaves low i = mergedAt a' b' leaves low i := by
  induction leaves generalizing low i with
  | nil => exact absurd hi (Nat.not_lt_zero i)
  | cons leaf leaves ih =>
    rw [rowWidth_cons] at h hi
    rw [mergedAt, mergedAt]
    by_cases hleaf : i < leaf.width
    · have hknown : KnownEqual a b low leaf.width ↔ KnownEqual a' b' low leaf.width := by
        refine forall₂_congr fun j hj => ?_
        rw [(h (low + j) (by omega)).1, (h (low + j) (by omega)).2]
      rw [if_pos hleaf, if_pos hleaf, if_congr hknown (h (low + i) (by omega)).1 rfl]
    · rw [if_neg hleaf, if_neg hleaf]
      exact ih (fun j hj => h j (by omega)) (by omega)

lemma mergedPeriods_congr {a' b' : ℕ → Bit} {count : ℕ}
    (h : ∀ i < count * rowWidth leaves, a i = a' i ∧ b i = b' i) (hi : i < count * rowWidth leaves) :
    mergedPeriods a b leaves i = mergedPeriods a' b' leaves i := by
  have hpos : 0 < rowWidth leaves := Nat.pos_of_mul_pos_left (lt_of_le_of_lt (Nat.zero_le i) hi)
  have hperiod : i / rowWidth leaves * rowWidth leaves + rowWidth leaves ≤ count * rowWidth leaves := by
    rw [← Nat.succ_mul]
    exact Nat.mul_le_mul_right _ ((Nat.div_lt_iff_lt_mul hpos).2 hi)
  exact mergedAt_congr (fun j hj => h j (by omega)) (Nat.mod_lt i hpos)

/-- The merge within one period. -/
lemma mergedPeriods_of_mem {k : ℕ} (hlow : k * rowWidth leaves ≤ i) (hhigh : i < k * rowWidth leaves + rowWidth leaves) :
    mergedPeriods a b leaves i = mergedAt a b leaves (k * rowWidth leaves) (i - k * rowWidth leaves) := by
  obtain ⟨j, rfl⟩ := Nat.exists_eq_add_of_le hlow
  have hj : j < rowWidth leaves := by omega
  rw [mergedPeriods, mul_comm k, Nat.mul_add_div (by omega), Nat.mul_add_mod, Nat.div_eq_of_lt hj,
    Nat.mod_eq_of_lt hj, add_zero, mul_comm k, Nat.add_sub_cancel_left]

/-- The merge of arrays of leaves. -/
lemma mergedPeriods_leaf (a b : ℕ → Bit) (leaf : Leaf) :
    mergedPeriods a b [leaf] = fun i =>
      mergedAt a b [leaf] (i / leaf.width * leaf.width) (i % leaf.width) := by
  funext i
  rw [mergedPeriods, show rowWidth [leaf] = leaf.width from add_zero _]

end Leaves

/-! ## The folding merges the leaves -/

lemma knownEqualBits_iff {a b : Bit} : knownEqualBits a b = true ↔ a = b ∧ a.isUnknown = false := by
  cases a <;> cases b <;> decide

section Folding

variable {sel a b default starts : Elab.Value} {leaf : Leaf} {leaves : List Leaf} {period base start fuel : ℕ}

/-- The next start is where the first leaf of the row ends. -/
lemma nextStart_eq (hperiod : period = start + rowWidth (leaf :: leaves))
    (hstarts : ∀ i, start + i < period → starts.bitLsb (start + i) = Bit.ofBool (startAt (leaf :: leaves) i)) :
    nextStart starts period start = start + leaf.width := by
  have hpos := leaf.width_pos
  rw [rowWidth_cons] at hperiod
  have hinside : ∀ j, start < j → j < start + leaf.width → starts.bitLsb j ≠ .one := by
    intro j hlow hhigh
    have hbit := hstarts (j - start) (by omega)
    rw [show start + (j - start) = j by omega, startAt, if_pos (by omega), decide_eq_false (by omega)] at hbit
    rw [hbit]
    decide
  rw [nextStart]
  by_cases hlast : rowWidth leaves = 0
  · have hnone : (range period).find? (fun j => decide (start < j ∧ starts.bitLsb j = .one)) = none := by
      rw [find?_eq_none]
      intro j hj
      have hj := mem_range.1 hj
      simpa using fun hlow => hinside j hlow (by omega)
    rw [hnone, Option.getD_none]
    omega
  · have hfound : (range period).find? (fun j => decide (start < j ∧ starts.bitLsb j = .one)) =
        some (start + leaf.width) := by
      rw [find?_range_eq_some]
      refine ⟨?_, mem_range.2 (by omega), fun j hj => ?_⟩
      · rw [decide_eq_true_iff, hstarts _ (by omega), startAt, if_neg (lt_irrefl _), Nat.sub_self,
          startAt_zero (by omega)]
        exact ⟨by omega, rfl⟩
      · rw [decide_eq_false fun h => hinside j h.1 hj h.2]
        rfl
    rw [hfound, Option.getD_some]

/-- The loop over the leaves of a period.  The induction is on the leaves that are left. -/
lemma foldPeriod_eq (hperiod : period = start + rowWidth leaves) (hfuel : leaves.length ≤ fuel)
    (hstarts : ∀ i, start + i < period → starts.bitLsb (start + i) = Bit.ofBool (startAt leaves i))
    (hdefault : ∀ i < rowWidth leaves, default.bitLsb (start + i) = defaultAt leaves i) :
    foldPeriod a b default starts period base fuel start =
      (range (rowWidth leaves)).map (mergedAt a.bitLsb b.bitLsb leaves (base + start)) := by
  induction leaves generalizing start fuel with
  | nil =>
    cases fuel with
    | zero => rfl
    | succ => rw [foldPeriod, if_neg (by simp [hperiod]), rowWidth_nil, range_zero, map_nil]
  | cons leaf leaves ih =>
    obtain ⟨fuel, rfl⟩ : ∃ f, fuel = f + 1 := ⟨fuel - 1, by rw [length_cons] at hfuel; omega⟩
    have hpos := leaf.width_pos
    have hequal : ((range' start leaf.width).all fun j =>
        knownEqualBits (a.bitLsb (base + j)) (b.bitLsb (base + j))) = true ↔
        KnownEqual a.bitLsb b.bitLsb (base + start) leaf.width := by
      simp only [range'_eq_map_range, all_map, all_eq_true, mem_range, Function.comp_apply,
        knownEqualBits_iff, KnownEqual, add_assoc]
    rw [foldPeriod, if_pos (by rw [hperiod, rowWidth_cons]; omega), nextStart_eq hperiod hstarts]
    dsimp only
    rw [Nat.add_sub_cancel_left]
    rw [rowWidth_cons] at hperiod
    rw [ih (by omega) (by rw [length_cons] at hfuel; omega), rowWidth_cons, range_add, map_append,
      map_map, range'_eq_map_range, map_map]
    · congr 1
      · refine map_congr_left fun j hj => ?_
        have hj := mem_range.1 hj
        have hbit := hdefault j (by rw [rowWidth_cons]; omega)
        rw [defaultAt, if_pos hj] at hbit
        rw [range'_eq_map_range] at hequal
        rw [Function.comp_apply, mergedAt, if_pos hj, if_congr hequal rfl rfl, hbit, add_assoc]
      · refine map_congr_left fun j _ => ?_
        rw [Function.comp_apply, mergedAt, if_neg (by omega), Nat.add_sub_cancel_left, add_assoc]
    · intro i hi
      have hbit := hstarts (leaf.width + i) (by omega)
      rwa [startAt, if_neg (by omega), Nat.add_sub_cancel_left, ← add_assoc] at hbit
    · intro i hi
      have hbit := hdefault (leaf.width + i) (by rw [rowWidth_cons]; omega)
      rwa [defaultAt, if_neg (by omega), Nat.add_sub_cancel_left, ← add_assoc] at hbit

/-- A row of rows, by position. -/
lemma flatMap_range_mul {α : Type} (n : ℕ) {m : ℕ} (hm : 0 < m) (f : ℕ → ℕ → α) :
    ((range n).flatMap fun k => (range m).map (f k)) =
      (range (n * m)).map fun i => f (i / m) (i % m) := by
  induction n with
  | zero => rw [zero_mul]; rfl
  | succ n ih =>
    rw [range_succ, flatMap_append, ih, Nat.succ_mul, range_add, map_append, map_map,
      flatMap_singleton]
    refine congrArg _ (map_congr_left fun j hj => ?_)
    have hj := mem_range.1 hj
    rw [Function.comp_apply, mul_comm n m, Nat.mul_add_div hm, Nat.div_eq_of_lt hj, add_zero,
      Nat.mul_add_mod, Nat.mod_eq_of_lt hj]

/-- `fold_struct_mux` with an unknown condition merges the leaves of every period. -/
lemma foldStructMux_eq (hsel : Bit.one ∉ sel.bits) (hunknown : sel.isUnknown = true) {count : ℕ}
    (hpos : 0 < rowWidth leaves) (ha : a.width = count * rowWidth leaves) (hb : b.width = count * rowWidth leaves)
    (hperiod : default.width = rowWidth leaves) (hwidth : starts.width = rowWidth leaves)
    (hstarts : ∀ i < rowWidth leaves, starts.bitLsb i = Bit.ofBool (startAt leaves i))
    (hdefault : ∀ i < rowWidth leaves, default.bitLsb i = defaultAt leaves i) :
    foldStructMux (some sel) (some a) (some b) (some default) (some starts) =
      some (ofBits (count * rowWidth leaves) false (mergedPeriods a.bitLsb b.bitLsb leaves)) := by
  have hshape : ¬(default.width = 0 ∨ starts.width ≠ default.width ∨ a.width ≠ b.width ∨
      a.width % default.width ≠ 0) := by
    rw [hperiod, hwidth, ha, hb, Nat.mul_mod_left]
    omega
  have hcount : a.width / default.width = count := by
    rw [ha, hperiod, Nat.mul_div_cancel _ hpos]
  have hrow : ∀ k, foldPeriod a b default starts default.width (k * default.width) default.width 0 =
      (range (rowWidth leaves)).map
        (mergedAt a.bitLsb b.bitLsb leaves (k * rowWidth leaves)) := by
    intro k
    have hlength : leaves.length ≤ default.width := by rw [hperiod]; exact length_le_rowWidth leaves
    rw [foldPeriod_eq (by rw [hperiod, zero_add]) hlength
      (by simpa only [zero_add, hperiod] using hstarts) (by simpa only [zero_add] using hdefault),
      hperiod, add_zero]
  simp only [foldStructMux, Option.bind_eq_bind, Option.bind_some, if_neg hsel, hunknown, not_true_eq_false,
    if_false, if_neg hshape, hcount, hrow]
  rw [flatMap_range_mul count hpos fun k => mergedAt a.bitLsb b.bitLsb leaves (k * rowWidth leaves)]
  rfl

end Folding

/-! ## Arrays -/

section Arrays

lemma bits_eq_msbFirst (v : Elab.Value) : v.bits = msbFirst v.width v.bitLsb := by
  refine ext_getElem (length_msbFirst _ _).symm fun i hi hi' => ?_
  have hi : i < v.bits.length := hi
  simp only [msbFirst, width, bitLsb, getElem_reverse, getElem_map, getElem_range, length_map,
    length_range]
  rw [if_pos (by omega), show v.bits.length - 1 - (v.bits.length - 1 - i) = i by omega,
    getD_eq_getElem _ _ hi]

/-- The chunks of a vector, by the element they hold. -/
lemma chunksExact_msbFirst {stride : ℕ} (hstride : 0 < stride) (count : ℕ) (f : ℕ → Bit) :
    chunksExact stride (msbFirst (count * stride) f) =
      msbFirst count fun k => msbFirst stride fun j => f (k * stride + j) := by
  rw [chunksExact, length_msbFirst, Nat.mul_div_cancel _ hstride]
  refine ext_getElem (by simp) fun k hk hk' => ?_
  have hk : k < count := by simpa using hk
  obtain ⟨rest, rfl⟩ : ∃ rest, count = rest + 1 + k := ⟨count - 1 - k, by omega⟩
  have htake := take_msbFirst (k := rest * stride) (w := (rest + 1) * stride) (by rw [Nat.succ_mul]; omega) f
  rw [Nat.succ_mul, Nat.add_sub_cancel_left] at htake
  rw [getElem_map, getElem_range, drop_msbFirst,
    show (rest + 1 + k) * stride - k * stride = rest * stride + stride by
      rw [add_mul, Nat.add_sub_cancel, Nat.succ_mul], htake]
  simp only [msbFirst, getElem_reverse, getElem_map, getElem_range, length_map,
    length_range]
  rw [show rest + 1 + k - 1 - k = rest by omega]
  simp only [add_comm (rest * stride)]

/-- A row of rows whose first row has the highest bits. -/
lemma flatMap_msbFirst {α : Type} {count stride : ℕ} (hstride : 0 < stride) {rows : ℕ → α} {row : α → List Bit}
    {f : ℕ → ℕ → Bit} (hrow : ∀ k, row (rows k) = msbFirst stride (f k)) :
    (msbFirst count rows).flatMap row = msbFirst (count * stride) fun i => f (i / stride) (i % stride) := by
  have hreverse : (fun k => (row (rows k)).reverse) = fun k => (range stride).map (f k) := by
    funext k
    rw [hrow, msbFirst, reverse_reverse]
  rw [msbFirst, msbFirst, ← flatMap_range_mul count hstride f, flatMap_reverse, flatMap_map]
  exact congrArg (fun g => ((range count).flatMap g).reverse) hreverse

variable {sel a b default : Elab.Value}

/-- `fold_array_mux` with an unknown condition merges the elements. -/
lemma foldArrayMux_eq (hsel : Bit.one ∉ sel.bits) (hunknown : sel.isUnknown = true) {count : ℕ} {leaf : Leaf}
    (ha : a.width = count * leaf.width) (hb : b.width = count * leaf.width)
    (hwidth : default.width = leaf.width) (hdefault : ∀ i < leaf.width, default.bitLsb i = leaf.default i) :
    foldArrayMux (some sel) (some a) (some b) (some default) =
      some (ofBits (count * leaf.width) false (mergedPeriods a.bitLsb b.bitLsb [leaf])) := by
  have hpos := leaf.width_pos
  have hshape : ¬(default.width = 0 ∨ a.width ≠ b.width ∨ a.width % default.width ≠ 0) := by
    rw [hwidth, ha, hb, Nat.mul_mod_left]
    omega
  have hzip : ∀ k, (zip (msbFirst leaf.width fun j => a.bitLsb (k * leaf.width + j))
      (msbFirst leaf.width fun j => b.bitLsb (k * leaf.width + j))).all (fun x => knownEqualBits x.1 x.2) = true ↔
      KnownEqual a.bitLsb b.bitLsb (k * leaf.width) leaf.width := by
    intro k
    rw [zip_eq_zipWith, zipWith_msbFirst, all_eq_true]
    simp only [mem_msbFirst, forall_exists_index, and_imp, forall_apply_eq_imp_iff₂, knownEqualBits_iff,
      KnownEqual]
  simp only [foldArrayMux, Option.bind_eq_bind, Option.bind_some, if_neg hsel, hunknown, not_true_eq_false,
    if_false, if_neg hshape]
  rw [bits_eq_msbFirst a, bits_eq_msbFirst b, bits_eq_msbFirst default, ha, hb, hwidth,
    chunksExact_msbFirst hpos, chunksExact_msbFirst hpos, zip_eq_zipWith, zipWith_msbFirst,
    flatMap_msbFirst (f := fun k => mergedAt a.bitLsb b.bitLsb [leaf] (k * leaf.width)) hpos]
  · rw [mergedPeriods_leaf]
    rfl
  · intro k
    by_cases hequal : KnownEqual a.bitLsb b.bitLsb (k * leaf.width) leaf.width
    · rw [if_pos ((hzip k).2 hequal)]
      refine msbFirst_congr fun j hj => ?_
      rw [mergedAt, if_pos hj, if_pos hequal]
    · rw [if_neg (hequal ∘ (hzip k).1)]
      refine msbFirst_congr fun j hj => ?_
      rw [mergedAt, if_pos hj, if_neg hequal, hdefault j hj]

end Arrays

/-! ## Types

`TypeDescriptor`, as far as the marking reads it: packed types and unpacked unions are leaves. -/

inductive Layout where
  | leaf (leaf : Leaf)
  | array (count : ℕ) (element : Layout)
  | record (members : List Layout)

mutual

/-- `fixed_descriptor_width`. -/
def Layout.width : Layout → ℕ
  | .leaf leaf => leaf.width
  | .array count element => count * element.width
  | .record members => membersWidth members

def membersWidth : List Layout → ℕ
  | [] => 0
  | member :: members => member.width + membersWidth members

end

mutual

/-- The leaves of a type, the lowest bits first: the first member has the highest bits. -/
def Layout.leaves : Layout → List Leaf
  | .leaf leaf => [leaf]
  | .array count element => (replicate count element.leaves).flatten
  | .record members => memberLeaves members

def memberLeaves : List Layout → List Leaf
  | [] => []
  | member :: members => memberLeaves members ++ member.leaves

end

/-- Neither a fixed array nor an unpacked structure. -/
def Layout.isLeaf : Layout → Bool
  | .leaf _ => true
  | _ => false

def setStart (starts : Words) (position : ℕ) : Words :=
  starts.modify (position / 64) (· ||| 1#64 <<< (position % 64))

mutual

/-- `mark_leaf_starts`. -/
def markLeafStarts : Layout → ℕ → Words → Except String Words
  | .leaf _, offset, starts => .ok (setStart starts offset)
  | .array count element, offset, starts =>
    (range ((Layout.array count element).width / element.width)).foldlM
      (fun starts index =>
        let position := offset + index * element.width
        if element.isLeaf then .ok (setStart starts position) else markLeafStarts element position starts)
      starts
  | .record members, offset, starts => do
    let (starts, cursor) ← markMembers members offset starts
    if cursor - offset ≠ (Layout.record members).width then
      .error "conditional structure payload width disagrees with members"
    else .ok starts

/-- The members are marked from the last one on. -/
def markMembers : List Layout → ℕ → Words → Except String (Words × ℕ)
  | [], cursor, starts => .ok (starts, cursor)
  | member :: members, cursor, starts => do
    let (starts, cursor) ← markMembers members cursor starts
    let starts ← markLeafStarts member cursor starts
    return (starts, cursor + member.width)

end

mutual

lemma rowWidth_leaves : (layout : Layout) → rowWidth layout.leaves = layout.width
  | .leaf leaf => by rw [Layout.leaves, Layout.width, rowWidth_cons, rowWidth_nil, add_zero]
  | .array count element => by
    rw [Layout.leaves, Layout.width, rowWidth_replicate, rowWidth_leaves element]
  | .record members => by rw [Layout.leaves, Layout.width, rowWidth_memberLeaves members]

lemma rowWidth_memberLeaves : (members : List Layout) → rowWidth (memberLeaves members) = membersWidth members
  | [] => by rw [memberLeaves, membersWidth, rowWidth_nil]
  | member :: members => by
    rw [memberLeaves, membersWidth, rowWidth_append, rowWidth_leaves member, rowWidth_memberLeaves members,
      add_comm]

end

/-- Words after the leaves of a row at an offset have been marked. -/
structure Marks (leaves : List Leaf) (offset : ℕ) (starts marked : Words) : Prop where
  length : marked.length = starts.length
  testBit : ∀ i, (wordsNat marked).testBit i =
    ((wordsNat starts).testBit i || (decide (offset ≤ i) && startAt leaves (i - offset)))

namespace Marks

variable {before after : List Leaf} {offset : ℕ} {starts marked last : Words}

lemma nil (offset : ℕ) (starts : Words) : Marks [] offset starts starts :=
  ⟨rfl, fun i => by rw [startAt, Bool.and_false, Bool.or_false]⟩

/-- Marks at neighbouring places. -/
lemma append (h : Marks before offset starts marked) (h' : Marks after (offset + rowWidth before) marked last) :
    Marks (before ++ after) offset starts last := by
  refine ⟨h'.length.trans h.length, fun i => ?_⟩
  rw [h'.testBit, h.testBit, startAt_append, Bool.or_assoc]
  congr 1
  by_cases hin : i - offset < rowWidth before
  · rw [if_pos hin]
    by_cases hlow : offset ≤ i
    · rw [decide_eq_false (show ¬offset + rowWidth before ≤ i by omega), Bool.false_and, Bool.or_false]
    · rw [decide_eq_false hlow, decide_eq_false (show ¬offset + rowWidth before ≤ i by omega), Bool.false_and,
        Bool.false_and, Bool.or_false]
  · rw [if_neg hin, startAt_of_le (by omega), Bool.and_false, Bool.false_or, Nat.sub_sub]
    by_cases hlow : offset ≤ i
    · rw [decide_eq_true hlow, decide_eq_true (show offset + rowWidth before ≤ i by omega)]
    · rw [decide_eq_false hlow, decide_eq_false (show ¬offset + rowWidth before ≤ i by omega)]

lemma leaf (leaf : Leaf) (h : offset < 64 * starts.length) :
    Marks [leaf] offset starts (setStart starts offset) := by
  refine ⟨length_modify .., fun i => ?_⟩
  have hstart : startAt [leaf] (i - offset) = decide (i - offset = 0) := by
    rw [startAt]
    split_ifs with hin
    · rfl
    · have hpos := leaf.width_pos
      rw [startAt, decide_eq_false (by omega)]
  rw [setStart, testBit_wordsNat_modify _ _ _ _ (by omega), hstart, testBit_wordsNat, ← Bool.decide_and]
  by_cases hword : i / 64 = offset / 64
  · rw [if_pos hword, BitVec.getLsbD_or, hword]
    congr 1
    rw [BitVec.getLsbD_shiftLeft, decide_eq_true (Nat.mod_lt i (by decide)), Bool.true_and, BitVec.getLsbD_one,
      ← decide_not, ← Bool.decide_and, ← Bool.decide_and, decide_eq_decide]
    omega
  · rw [if_neg hword, decide_eq_false (by omega), Bool.or_false]

end Marks

/-- A loop that marks one row after another. -/
lemma foldlM_marks {row : List Leaf} {offset stride : ℕ} (hstride : stride = rowWidth row)
    {mark : Words → ℕ → Except String Words} {words : ℕ}
    (hmark : ∀ position starts, position + stride ≤ 64 * words → starts.length = words →
      ∃ marked, mark starts position = .ok marked ∧ Marks row position starts marked)
    (count : ℕ) (hfits : offset + count * stride ≤ 64 * words) {starts : Words} (hlen : starts.length = words) :
    ∃ marked, (range count).foldlM (fun starts index => mark starts (offset + index * stride)) starts =
      .ok marked ∧ Marks (replicate count row).flatten offset starts marked := by
  induction count with
  | zero => exact ⟨starts, rfl, .nil ..⟩
  | succ count ih =>
    rw [Nat.succ_mul] at hfits
    obtain ⟨marked, hrun, hmarks⟩ := ih (by omega)
    obtain ⟨last, hlast, hmarksLast⟩ := hmark (offset + count * stride) marked (by omega)
      (hmarks.length.trans hlen)
    refine ⟨last, ?_, ?_⟩
    · rw [range_succ, foldlM_append, hrun]
      simp only [bind, Except.bind, foldlM_cons, foldlM_nil, hlast]
      rfl
    · rw [replicate_succ', flatten_append, flatten_singleton]
      refine hmarks.append ?_
      rwa [rowWidth_replicate, ← hstride]

mutual

/-- The marking of a type marks its leaves, and its check of the width never fails. -/
lemma markLeafStarts_marks {words : ℕ} : (layout : Layout) → ∀ offset starts,
    offset + layout.width ≤ 64 * words → starts.length = words →
      ∃ marked, markLeafStarts layout offset starts = .ok marked ∧ Marks layout.leaves offset starts marked
  | .leaf leaf => by
    intro offset starts hfits hlen
    have hpos := leaf.width_pos
    rw [Layout.width] at hfits
    exact ⟨_, by rw [markLeafStarts], .leaf leaf (by omega)⟩
  | .array count element => by
    intro offset starts hfits hlen
    -- an element that is a leaf is marked as the call would mark it
    have hloop : ∀ (starts : Words) (position : ℕ),
        (if element.isLeaf then .ok (setStart starts position) else markLeafStarts element position starts) =
          markLeafStarts element position starts := by
      intro starts position
      cases element with
      | leaf => rw [markLeafStarts]; rfl
      | array | record => rfl
    simp only [markLeafStarts, hloop]
    rw [Layout.width] at hfits ⊢
    rw [Layout.leaves]
    rcases Nat.eq_zero_or_pos element.width with hzero | hpos
    · have hnone : element.leaves = [] := by
        rw [← length_eq_zero_iff]
        have hlength := length_le_rowWidth element.leaves
        rw [rowWidth_leaves] at hlength
        omega
      refine ⟨starts, by rw [hzero, mul_zero, Nat.zero_div]; rfl, ?_⟩
      rw [hnone, flatten_replicate_nil]
      exact .nil ..
    · rw [Nat.mul_div_cancel _ hpos]
      have hmark : ∀ (position : ℕ) (starts : Words), position + element.width ≤ 64 * words →
          starts.length = words → ∃ marked, (fun starts position => markLeafStarts element position starts)
            starts position = .ok marked ∧ Marks element.leaves position starts marked :=
        fun position starts hfits hlen => markLeafStarts_marks element position starts hfits hlen
      exact foldlM_marks (rowWidth_leaves element).symm hmark count hfits hlen
  | .record members => by
    intro offset starts hfits hlen
    rw [Layout.width] at hfits
    obtain ⟨marked, hrun, hmarks⟩ := markMembers_marks members offset starts hfits hlen
    refine ⟨marked, ?_, by rwa [Layout.leaves]⟩
    rw [markLeafStarts, hrun]
    simp only [bind, Except.bind, Layout.width, Nat.add_sub_cancel_left, ne_eq, not_true_eq_false, if_false]

lemma markMembers_marks {words : ℕ} : (members : List Layout) → ∀ offset starts,
    offset + membersWidth members ≤ 64 * words → starts.length = words →
      ∃ marked, markMembers members offset starts = .ok (marked, offset + membersWidth members) ∧
        Marks (memberLeaves members) offset starts marked
  | [] => by
    intro offset starts _ _
    exact ⟨starts, by rw [markMembers, membersWidth, add_zero], by rw [memberLeaves]; exact .nil ..⟩
  | member :: members => by
    intro offset starts hfits hlen
    rw [membersWidth] at hfits ⊢
    obtain ⟨marked, hrun, hmarks⟩ := markMembers_marks members offset starts (by omega) hlen
    obtain ⟨last, hlast, hmarksLast⟩ := markLeafStarts_marks member (offset + membersWidth members) marked
      (by omega) (hmarks.length.trans hlen)
    refine ⟨last, ?_, ?_⟩
    · rw [markMembers, hrun]
      simp only [bind, Except.bind, hlast]
      rw [add_comm member.width, ← add_assoc]
      rfl
    · rw [memberLeaves]
      exact hmarks.append (by rwa [rowWidth_memberLeaves])

end

/-- The start bits that `record_leaf_merge` makes. -/
def recordLeafStarts (layout : Layout) : Except String Words :=
  markLeafStarts layout 0 (replicate ((layout.width + 63) / 64) 0)

/-- The start bits of a type are the starts of its leaves. -/
lemma testBit_recordLeafStarts (layout : Layout) :
    ∃ starts, recordLeafStarts layout = .ok starts ∧
      ∀ i, (wordsNat starts).testBit i = startAt layout.leaves i := by
  obtain ⟨starts, hrun, hmarks⟩ := markLeafStarts_marks layout 0
    (replicate ((layout.width + 63) / 64) 0) (by omega) length_replicate
  refine ⟨starts, hrun, fun i => ?_⟩
  rw [hmarks.testBit, wordsNat_replicate_zero, Nat.zero_testBit, Bool.false_or, decide_eq_true (Nat.zero_le i),
    Bool.true_and, Nat.sub_zero]

end Lapligence.Opt
