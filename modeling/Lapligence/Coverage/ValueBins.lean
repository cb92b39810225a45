import Lapligence.Coverage.Layout
import Lapligence.Framework.WordLists
import Mathlib.Algebra.Order.Ring.Int
import Mathlib.Tactic.Ring
import Mathlib.Tactic.Zify

/-!
# Declared bins, value by value

What the declared bins of a coverpoint mean, said about one value at a time and without ranges: the
values that an item names, the elements of a declaration that a value belongs to, and the counters
that a sample increments.  `binValues_eq` says that the resolved key ranges of a declaration spell
out the values it names.
-/

namespace Lapligence.Coverage

open Int List

namespace LlgCovPoint

variable (point : LlgCovPoint) (slots : ℕ → LlgCovSlotValue)

/-! ## The definition -/

/-- The value of the coverpoint that has a key. -/
def valueOf (key : ℕ) : ℤ :=
  if point.signed then key - 2 ^ (point.width - 1) else key

/-- An item names the values between its bounds; reversed bounds and unknown ones name none. -/
def Names (item : LlgCovItem) (key : ℕ) : Prop :=
  match item with
  | .keys span => span.Holds key
  | .bounds lo hi =>
    match point.boundNum slots lo, point.boundNum slots hi with
    | some lo, some hi => lo ≤ point.valueOf key ∧ point.valueOf key ≤ hi
    | _, _ => False

instance (item : LlgCovItem) (key : ℕ) : Decidable (point.Names slots item key) := by
  unfold Names
  split
  · infer_instance
  · split <;> infer_instance

/-- The keys of the values that an item names, in order. -/
def itemValues (item : LlgCovItem) : List ℕ :=
  (List.range (2 ^ point.width)).filter fun key => point.Names slots item key

/-- The values of a declaration, in the order of its items and with duplicates. -/
def binValues (bin : LlgCovBin) : List ℕ :=
  bin.items.flatMap (point.itemValues slots)

/-- The elements of a `bins` declaration that a value belongs to.  A scalar has one element, `b[]`
one for each distinct value; for `b[N]` the values are dealt to the elements, `length / N` to each
but at least one, and the last element takes what is left. -/
def elements (bin : LlgCovBin) (key : ℕ) : List ℕ :=
  let values := point.binValues slots bin
  match bin.shape with
  | .scalar => if key ∈ values then [0] else []
  | .perValue => Span.positions key values.toFinset.sort 0
  | .count count =>
    let n := (llgCovBinCount slots count).1
    if n = 0 then []
    else (Span.positions key values 0).map fun k => min (k / max 1 (values.length / n)) (n - 1)

/-- The number of counters of a declaration. -/
def binSize (bin : LlgCovBin) : ℕ :=
  match bin.kind with
  | .default => 1
  | .bins =>
    match bin.shape with
    | .scalar => 1
    | .perValue => (point.binValues slots bin).toFinset.card
    | .count count => (llgCovBinCount slots count).1
  | _ => 0

/-- The counters of the declarations follow each other, after `n` others. -/
def binBase (n : ℕ) : ℕ → List LlgCovBin → ℕ
  | 0, _ => n
  | _ + 1, [] => n
  | d + 1, bin :: bins => binBase (n + point.binSize slots bin) d bins

/-- The value is removed from all bins: an `ignore_bins` or `illegal_bins` declaration names it. -/
def Removed (key : ℕ) : Prop :=
  ∃ bin ∈ point.bins, (bin.kind = .ignore ∨ bin.kind = .illegal) ∧ key ∈ point.binValues slots bin

instance (key : ℕ) : Decidable (point.Removed slots key) :=
  inferInstanceAs (Decidable (∃ bin ∈ point.bins, _))

/-- The declarations of `bins`, from index `d` on with `n` counters before them, that a value belongs
to, with the counters of its elements there. -/
def declaredHits (key : ℕ) : ℕ → ℕ → List LlgCovBin → List (ℕ × ℕ)
  | _, _, [] => []
  | n, d, bin :: bins =>
    (if bin.kind = .bins then (point.elements slots bin key).map fun e => (d, n + e) else []) ++
      declaredHits key (n + point.binSize slots bin) (d + 1) bins

/-- The `default` declarations with their counters. -/
def defaultHits : ℕ → ℕ → List LlgCovBin → List (ℕ × ℕ)
  | _, _, [] => []
  | n, d, bin :: bins =>
    (if bin.kind = .default then [(d, n)] else []) ++
      defaultHits (n + point.binSize slots bin) (d + 1) bins

/-- The declarations of a kind that name a value. -/
def naming (kind : BinKind) (key : ℕ) : ℕ → List LlgCovBin → List ℕ
  | _, [] => []
  | d, bin :: bins =>
    (if bin.kind = kind ∧ key ∈ point.binValues slots bin then [d] else []) ++
      naming kind key (d + 1) bins

/-! ## What the compiler ensures -/

/-- What holds of the coverpoints of a compiled model: keys resolved at compile time are keys of
the coverpoint's type, automatic bins exist only without `bins` declarations, and the members of an
enumeration are ascending keys. -/
structure WellFormed : Prop where
  width_pos : 0 < point.width
  width_le : point.width ≤ 64
  items_le : ∀ bin ∈ point.bins, ∀ span, .keys span ∈ bin.items →
    span.lo ≤ span.hi ∧ span.hi ≤ point.llgCovMask
  automatic : point.kind ≠ .explicit → ∀ bin ∈ point.bins, bin.kind ≠ .bins ∧ bin.kind ≠ .default
  keys_sorted : point.keys.Pairwise (· < ·)
  keys_le : ∀ key ∈ point.keys, key ≤ point.llgCovMask
  keys_length : point.keys.length ≤ uint32Max

/-! ## Keys and values -/

section Keys

variable {point} {slots}

lemma llgCovMask_eq (h : point.width ≤ 64) : point.llgCovMask = 2 ^ point.width - 1 := by
  rw [llgCovMask]
  split_ifs with h64
  · rw [le_antisymm h h64]
    rfl
  · rfl

lemma le_llgCovMask_iff (h : point.width ≤ 64) {key : ℕ} :
    key ≤ point.llgCovMask ↔ key < 2 ^ point.width := by
  have := Nat.two_pow_pos point.width
  rw [llgCovMask_eq h]
  omega

lemma llgCovMask_le (h : point.width ≤ 64) : point.llgCovMask ≤ uint64Max := by
  rw [llgCovMask_eq h, uint64Max]
  exact Nat.sub_le_sub_right (Nat.pow_le_pow_right (by decide) h) 1

/-- Masking keeps an integer modulo the number of values. -/
lemma and_llgCovMask (hle : point.width ≤ 64) (v : ℤ) :
    (v % 2 ^ 64).toNat &&& point.llgCovMask = (v % 2 ^ point.width).toNat := by
  have h64 : 0 ≤ v % 2 ^ 64 := emod_nonneg _ (by decide)
  have hw : 0 ≤ v % 2 ^ point.width := Int.emod_nonneg _ (Int.ne_of_gt (Int.pow_pos (by decide)))
  rw [llgCovMask_eq hle, Nat.and_two_pow_sub_one_eq_mod]
  apply natCast_inj.1
  rw [natCast_emod, natCast_pow, toNat_of_nonneg h64, toNat_of_nonneg hw]
  exact emod_emod_of_dvd v (pow_dvd_pow 2 hle)

/-- The key of a value is its distance from the smallest value. -/
lemma llgCovNumKey_eq (hpos : 0 < point.width) (hle : point.width ≤ 64) {v : ℤ}
    (hmin : point.llgCovTypeMin ≤ v) (hmax : v ≤ point.llgCovTypeMax) :
    (point.llgCovNumKey v : ℤ) = v - point.llgCovTypeMin := by
  obtain ⟨n, hn⟩ := Nat.exists_eq_add_of_lt hpos
  rw [zero_add] at hn
  rw [llgCovNumKey, llgCovKey, and_llgCovMask hle, hn]
  rw [llgCovTypeMin, hn] at hmin ⊢
  rw [llgCovTypeMax, llgCovMask_eq hle, hn] at hmax
  have hpow : (2 : ℤ) ^ (n + 1) = 2 * 2 ^ n := by ring
  have hpos : (0 : ℤ) < 2 ^ n := Int.pow_pos (by decide)
  rw [Nat.add_sub_cancel] at hmin ⊢
  by_cases hs : point.signed = true
  · rw [if_pos hs] at hmin hmax ⊢
    rw [if_pos hs]
    have hhalf : (2 ^ (n + 1) - 1) / 2 = 2 ^ n - 1 := by
      have := Nat.two_pow_pos n
      rw [pow_succ]
      omega
    rw [hhalf, Nat.cast_sub (Nat.two_pow_pos n)] at hmax
    push_cast at hmax
    rcases le_or_gt 0 v with hv | hv
    · have hmod : (v % 2 ^ (n + 1)).toNat = v.toNat := by
        rw [emod_eq_of_lt hv (by omega)]
      rw [hmod, WordLists.xor_two_pow]
      · push_cast
        omega
      · zify
        omega
    · have hmod : (v % 2 ^ (n + 1)).toNat = 2 ^ n + (v + 2 ^ n).toNat := by
        rw [← add_emod_right, emod_eq_of_lt (by omega) (by omega)]
        zify
        omega
      have hlt : (v + 2 ^ n).toNat < 2 ^ n := by
        zify
        omega
      rw [hmod, ← WordLists.xor_two_pow hlt, Nat.xor_assoc, Nat.xor_self, Nat.xor_zero]
      omega
  · rw [if_neg hs] at hmin hmax ⊢
    rw [if_neg hs, emod_eq_of_lt hmin]
    · omega
    · have := Nat.two_pow_pos (n + 1)
      rw [Nat.cast_sub this] at hmax
      push_cast at hmax
      omega

lemma valueOf_eq (point : LlgCovPoint) (key : ℕ) :
    point.valueOf key = key + point.llgCovTypeMin := by
  rw [valueOf, llgCovTypeMin]
  split_ifs <;> ring

section Width

variable (hpos : 0 < point.width) (hle : point.width ≤ 64)

include hpos hle

/-- The type of the coverpoint has as many values as there are keys. -/
lemma llgCovTypeMax_sub :
    point.llgCovTypeMax - point.llgCovTypeMin = point.llgCovMask := by
  obtain ⟨n, hn⟩ := Nat.exists_eq_add_of_lt hpos
  rw [zero_add] at hn
  rw [llgCovTypeMin, llgCovTypeMax, llgCovMask_eq hle, hn, pow_succ, Nat.add_sub_cancel]
  have hpow : ((2 ^ n : ℕ) : ℤ) = 2 ^ n := by push_cast; rfl
  have := Nat.two_pow_pos n
  rw [← hpow]
  generalize 2 ^ n = p at this ⊢
  split_ifs <;> omega

lemma valueOf_bounds {key : ℕ} (hkey : key ≤ point.llgCovMask) :
    point.llgCovTypeMin ≤ point.valueOf key ∧ point.valueOf key ≤ point.llgCovTypeMax := by
  have := llgCovTypeMax_sub hpos hle
  rw [valueOf_eq]
  omega

/-- The keys between those of two values are those of the values between. -/
lemma holds_numKey_iff {lo hi : ℤ} (hlo : point.llgCovTypeMin ≤ lo) (hlohi : lo ≤ hi)
    (hhi : hi ≤ point.llgCovTypeMax) (key : ℕ) :
    Span.Holds ⟨point.llgCovNumKey lo, point.llgCovNumKey hi⟩ key ↔
      lo ≤ point.valueOf key ∧ point.valueOf key ≤ hi := by
  have hl := llgCovNumKey_eq hpos hle hlo (hlohi.trans hhi)
  have hh := llgCovNumKey_eq hpos hle (hlo.trans hlohi) hhi
  rw [valueOf_eq, Span.Holds]
  dsimp only
  omega

variable (slots) {item : LlgCovItem}
  (hitem : ∀ span, item = .keys span → span.lo ≤ span.hi ∧ span.hi ≤ point.llgCovMask)

include hitem

/-- The keys of an item are those of the values it names. -/
lemma itemKeys_spec :
    match (point.llgCovItemKeys slots item).1 with
    | some span => span.lo ≤ span.hi ∧ span.hi ≤ point.llgCovMask ∧
        ∀ key ≤ point.llgCovMask, point.Names slots item key ↔ span.Holds key
    | none => ∀ key ≤ point.llgCovMask, ¬point.Names slots item key := by
  match item with
  | .keys span => exact ⟨(hitem span rfl).1, (hitem span rfl).2, fun key _ => Iff.rfl⟩
  | .bounds loBound hiBound =>
    simp only [llgCovItemKeys, Names]
    cases hl : point.boundNum slots loBound with
    | none => simp
    | some boundLo =>
      cases hh : point.boundNum slots hiBound with
      | none => simp
      | some boundHi =>
        dsimp only
        generalize hlo : (if boundLo < point.llgCovTypeMin then point.llgCovTypeMin else boundLo) = lo
        generalize hhi : (if point.llgCovTypeMax < boundHi then point.llgCovTypeMax else boundHi) = hi
        have hmin : point.llgCovTypeMin ≤ lo := by split_ifs at hlo <;> omega
        have hmax : hi ≤ point.llgCovTypeMax := by split_ifs at hhi <;> omega
        have hclip : ∀ key ≤ point.llgCovMask,
            (boundLo ≤ point.valueOf key ∧ point.valueOf key ≤ boundHi) ↔
              lo ≤ point.valueOf key ∧ point.valueOf key ≤ hi := by
          intro key hkey
          obtain ⟨h1, h2⟩ := valueOf_bounds hpos hle hkey
          split_ifs at hlo hhi <;> omega
        by_cases hout : boundHi < boundLo ∨ hi < lo
        · rw [if_pos hout]
          intro key hkey hnames
          have := (hclip key hkey).1 hnames
          omega
        · rw [if_neg hout]
          push Not at hout
          have hholds := holds_numKey_iff hpos hle hmin hout.2 hmax
          refine ⟨?_, ?_, fun key hkey => (hclip key hkey).trans (hholds key).symm⟩
          · have h1 := llgCovNumKey_eq hpos hle hmin (hout.2.trans hmax)
            have h2 := llgCovNumKey_eq hpos hle (hmin.trans hout.2) hmax
            zify
            omega
          · have h2 := llgCovNumKey_eq hpos hle (hmin.trans hout.2) hmax
            have := llgCovTypeMax_sub hpos hle
            zify
            omega

lemma itemValues_eq : point.itemValues slots item =
    Span.values ((point.llgCovItemKeys slots item).1.toList) := by
  have hspec := itemKeys_spec slots hpos hle hitem
  have hmem : ∀ key, key ∈ point.itemValues slots item ↔
      key ≤ point.llgCovMask ∧ point.Names slots item key := by
    intro key
    rw [itemValues, mem_filter, mem_range, decide_eq_true_eq, ← le_llgCovMask_iff hle]
  cases hkeys : (point.llgCovItemKeys slots item).1 with
  | none =>
    rw [hkeys] at hspec
    refine eq_nil_iff_forall_not_mem.2 fun key hkey => ?_
    obtain ⟨hkey, hnames⟩ := (hmem key).1 hkey
    exact hspec key hkey hnames
  | some =>
    rw [hkeys] at hspec
    obtain ⟨-, hmask, hnames⟩ := hspec
    refine Span.eq_of_sorted (pairwise_lt_range.filter _) ?_ fun key => ?_
    · simpa [Span.toList] using pairwise_lt_range'
    · rw [hmem, Span.mem_values]
      simp only [Option.toList_some, mem_singleton, exists_eq_left]
      constructor
      · rintro ⟨hkey, hn⟩
        exact (hnames key hkey).1 hn
      · intro hholds
        have hkey := hholds.2.trans hmask
        exact ⟨hkey, (hnames key hkey).2 hholds⟩

end Width

/-- The key ranges of a declaration's items spell out its values. -/
lemma binValues_eq (hpoint : point.WellFormed) {bin : LlgCovBin} (hbin : bin ∈ point.bins) :
    point.binValues slots bin = Span.values (point.binSpans slots bin) := by
  have hitems := hpoint.items_le bin hbin
  rw [binValues, binSpans]
  generalize bin.items = items at hitems
  induction items with
  | nil => rfl
  | cons item items ih =>
    have hitem : ∀ span, item = .keys span → span.lo ≤ span.hi ∧ span.hi ≤ point.llgCovMask :=
      fun span heq => hitems span (heq ▸ mem_cons_self)
    rw [flatMap_cons, itemValues_eq slots hpoint.width_pos hpoint.width_le hitem,
      ih fun span hspan => hitems span (mem_cons_of_mem item hspan), filterMap_cons]
    cases (point.llgCovItemKeys slots item).1 with
    | none => rfl
    | some => simp

lemma mem_binSpans (hpoint : point.WellFormed) {bin : LlgCovBin} (hbin : bin ∈ point.bins)
    {span : Span} (hspan : span ∈ point.binSpans slots bin) :
    span.lo ≤ span.hi ∧ span.hi ≤ point.llgCovMask := by
  obtain ⟨item, hitem, hkeys⟩ := mem_filterMap.1 hspan
  have hspec := itemKeys_spec slots hpoint.width_pos hpoint.width_le
    fun span heq => hpoint.items_le bin hbin span (heq ▸ hitem)
  rw [hkeys] at hspec
  exact ⟨hspec.1, hspec.2.1⟩

end Keys

end LlgCovPoint

end Lapligence.Coverage
