import Lapligence.Coverage.Hits

/-!
# The automatic bins as a partition

`autoRange` is the definition of an automatic bin: with `n` bins every bin has
`floor (2 ^ width / n)` consecutive values, and the last one also has the remainder.  `AutoPartition`
says that the code computes these ranges, for single values, for the spans of the layout and for
samples.  `autoPartition_iff` says when it does: the width of the share is a 64-bit number, so a single
bin for all values of 64 bits has the width zero and the division by it traps.
-/

namespace Lapligence.Coverage

open Value BitVec

namespace LlgCovPoint

variable (point : LlgCovPoint)

/-! ## The definition -/

/-- The number of automatic bins. -/
def autoCount (autoBinMax : BitVec 64) : ℕ :=
  min autoBinMax.toNat (2 ^ point.width)

/-- The keys of automatic bin `b` of `n`. -/
def autoRange (n b : ℕ) : Span where
  lo := b * (2 ^ point.width / n)
  hi := if b + 1 = n then 2 ^ point.width - 1 else (b + 1) * (2 ^ point.width / n) - 1

/-- Bin `b` is the only one of `n` whose range holds `key`. -/
def OnlyBin (n key b : ℕ) : Prop :=
  ∀ c, c < n ∧ (point.autoRange n c).Holds key ↔ c = b

/-- The code computes the partition: the number of bins, the bin of a key, the span of bins of a span of
keys, and, when the layout is built, the one bin that a sample of a value counts which is not ignored
and not illegal. -/
structure AutoPartition (autoBinMax : BitVec 64) : Prop where
  count : point.llgCovAutoBins autoBinMax = point.autoCount autoBinMax
  bin : ∀ key < 2 ^ point.width, ∃ b,
    point.llgCovAutoBin (point.autoCount autoBinMax) key = .ok b ∧
      point.OnlyBin (point.autoCount autoBinMax) key b
  spans : ∀ lo hi, lo ≤ hi → hi < 2 ^ point.width → ∃ s,
    point.llgCovAutoSpans (point.autoCount autoBinMax) lo hi = .ok [s] ∧
      ∀ c, s.Holds c ↔ c < point.autoCount autoBinMax ∧
        ∃ k, (lo ≤ k ∧ k ≤ hi) ∧ (point.autoRange (point.autoCount autoBinMax) c).Holds k
  layout : ∀ sort slots, point.itemCount ≤ 2 ^ 15 →
    ∃ layout, llgCovBuildLayout sort point slots autoBinMax = .ok layout
  sample : ∀ sort slots layout, llgCovBuildLayout sort point slots autoBinMax = .ok layout →
    ∀ value guards, sv4IsUnknown value = false →
      ¬point.Removed slots (point.llgCovKey (llgSv4Word value 0).toNat) →
      ∃ b, llgCovHit point layout value guards = .ok ⟨[b], none⟩ ∧
        point.OnlyBin (point.autoCount autoBinMax) (point.llgCovKey (llgSv4Word value 0).toNat) b

variable {point}

/-! ## The ranges are a partition -/

lemma onlyBin_div {n key : ℕ} (hn : 0 < n) (hle : n ≤ 2 ^ point.width)
    (hkey : key < 2 ^ point.width) :
    point.OnlyBin n key (min (key / (2 ^ point.width / n)) (n - 1)) := by
  intro c
  have hshare : 0 < 2 ^ point.width / n := Nat.div_pos hle hn
  have hlo : c * (2 ^ point.width / n) ≤ key ↔ c ≤ key / (2 ^ point.width / n) :=
    (Nat.le_div_iff_mul_le hshare).symm
  have hhi : key < (c + 1) * (2 ^ point.width / n) ↔ key / (2 ^ point.width / n) < c + 1 :=
    (Nat.div_lt_iff_lt_mul hshare).symm
  have hpos : 0 < (c + 1) * (2 ^ point.width / n) := Nat.mul_pos c.succ_pos hshare
  simp only [autoRange, Span.Holds, hlo]
  split_ifs with hlast
  · omega
  · omega

/-! ## The code -/

variable (point) in
lemma autoCount_bounds (hpos : 0 < autoBinMax.toInt) :
    0 < point.autoCount autoBinMax ∧ point.autoCount autoBinMax ≤ 2 ^ point.width := by
  have htwo := Nat.two_pow_pos point.width
  have hmax : 0 < autoBinMax.toNat := pos_of_ne_zero fun h => by
    rw [eq_of_toNat_eq (y := 0#64) h] at hpos
    exact absurd hpos (by decide)
  rw [autoCount]
  omega

/-- A positive option is read as it is; at the full width it is below the number of values. -/
lemma llgCovAutoBins_eq (hle : point.width ≤ 64) (hpos : 0 < autoBinMax.toInt) :
    point.llgCovAutoBins autoBinMax = point.autoCount autoBinMax := by
  have hlt := autoBinMax.isLt
  have hnat : autoBinMax.toInt.toNat = autoBinMax.toNat := by
    rw [toInt_eq_toNat_of_msb (msb_eq_false_iff_two_mul_lt.2 ?_)]
    · rfl
    · by_contra hge
      rw [toInt_eq_toNat_cond, if_neg hge] at hpos
      omega
  have hlimit : ¬autoBinMax.toInt < 1 := by omega
  simp only [llgCovAutoBins, if_neg hlimit, hnat, autoCount]
  rcases lt_or_ge point.width 64 with hw | hw
  · split_ifs with h <;> omega
  · rw [if_neg (by omega), le_antisymm hle hw]
    omega

/-- The share is a whole 64-bit range in one case only. -/
lemma autoSpan_autoCount_ne_zero (hpoint : point.WellFormed) (hpos : 0 < autoBinMax.toInt)
    (h : ¬(point.width = 64 ∧ autoBinMax = 1)) :
    point.autoSpan (point.autoCount autoBinMax) ≠ 0 := by
  rw [← llgCovAutoBins_eq hpoint.width_le hpos]
  refine autoSpan_ne_zero hpoint fun hw => ?_
  by_contra hone
  exact h ⟨hw, eq_of_toInt_eq (by rw [show autoBinMax.toInt = 1 by omega]; rfl)⟩

lemma llgCovAutoBin_onlyBin (hpoint : point.WellFormed) (hpos : 0 < autoBinMax.toInt)
    (hspan : point.autoSpan (point.autoCount autoBinMax) ≠ 0) {key : ℕ}
    (hkey : key < 2 ^ point.width) :
    ∃ b, point.llgCovAutoBin (point.autoCount autoBinMax) key = .ok b ∧
      point.OnlyBin (point.autoCount autoBinMax) key b := by
  obtain ⟨hn, hle⟩ := autoCount_bounds point hpos
  have hok : ∃ b, point.llgCovAutoBin (point.autoCount autoBinMax) key = .ok b := by
    rw [llgCovAutoBin, if_neg hspan]
    exact ⟨_, rfl⟩
  obtain ⟨b, hb⟩ := hok
  obtain ⟨rfl, -⟩ := llgCovAutoBin_eq_ok hpoint.width_le hn hb
  exact ⟨_, hb, onlyBin_div hn hle hkey⟩

/-- The counters of a coverpoint with automatic bins are those of the automatic bins. -/
lemma binBase_automatic (hpoint : point.WellFormed) (hkind : point.kind ≠ .explicit)
    (slots : ℕ → LlgCovSlotValue) (n : ℕ) :
    point.binBase slots n point.bins.length point.bins = n := by
  have hbins := hpoint.automatic hkind
  generalize point.bins = bins at hbins
  induction bins with
  | nil => rfl
  | cons bin bins ih =>
    have hsize : point.binSize slots bin = 0 := by
      obtain ⟨hbin, hdefault⟩ := hbins bin List.mem_cons_self
      rw [binSize]
      cases hk : bin.kind with
      | bins => exact absurd hk hbin
      | default => exact absurd hk hdefault
      | ignore | illegal | illegalDefault => rfl
    rw [List.length_cons, binBase, hsize]
    exact ih fun b hb => hbins b (List.mem_cons_of_mem bin hb)

lemma layoutFits_automatic (hpoint : point.WellFormed) (hkind : point.kind = .auto)
    (slots : ℕ → LlgCovSlotValue) (hitems : point.itemCount ≤ 2 ^ 15)
    (hmax : point.width = 64 → 1 < autoBinMax.toInt) : point.LayoutFits slots autoBinMax where
  counters_le := by
    rw [binBase_automatic hpoint (by simp [hkind])]
    exact (autoCount_nAuto hpoint autoBinMax).le hpoint
  values_le := fun bin hbin _ hbins =>
    absurd hbins (hpoint.automatic (by simp [hkind]) bin hbin).1
  items_le := hitems
  autoBinMax_gt := fun _ => hmax

/-- **The automatic bins.**  The code computes the partition of the values exactly when it does not have
to count all 64-bit values in one bin. -/
theorem autoPartition_iff (hpoint : point.WellFormed) (hkind : point.kind = .auto)
    (hpos : 0 < autoBinMax.toInt) :
    point.AutoPartition autoBinMax ↔ ¬(point.width = 64 ∧ autoBinMax = 1) := by
  constructor
  · rintro h ⟨hwidth, rfl⟩
    -- the share of one bin is `2 ^ 64`, which is zero as a 64-bit number
    obtain ⟨b, hb, -⟩ := h.bin 0 (Nat.two_pow_pos _)
    have hspan : point.autoSpan (point.autoCount 1) = 0 := by
      rw [autoSpan, autoCount, hwidth]
      decide
    rw [llgCovAutoBin, if_pos hspan] at hb
    exact absurd hb (by simp)
  · intro h
    have hcount := llgCovAutoBins_eq hpoint.width_le hpos
    have hspan := autoSpan_autoCount_ne_zero hpoint hpos h
    have hbin : ∀ key < 2 ^ point.width, _ := fun key hkey =>
      llgCovAutoBin_onlyBin hpoint hpos hspan hkey
    have hn : point.nAuto autoBinMax = point.autoCount autoBinMax := by rw [nAuto, hkind, ← hcount]
    refine ⟨hcount, hbin, fun lo hi hlohi hhi => ?_, fun sort slots hitems => ?_,
      fun sort slots layout hlayout value guards hknown hkept => ?_⟩
    · obtain ⟨first, hfirst, -⟩ := hbin lo (by omega)
      obtain ⟨last, hlast, -⟩ := hbin hi hhi
      have hok : point.llgCovAutoSpans (point.autoCount autoBinMax) lo hi = .ok [⟨first, last⟩] := by
        rw [llgCovAutoSpans, if_pos hkind, hfirst, hlast]
        rfl
      refine ⟨_, hok, fun c => ?_⟩
      obtain ⟨hholds, -⟩ := llgCovAutoSpans_spec hpoint (by simp [hkind])
        (hn ▸ autoCount_nAuto hpoint autoBinMax) hlohi hok
      have hc := hholds c
      simp only [List.mem_singleton, exists_eq_left] at hc
      rw [hc, ← exists_and_left]
      refine exists_congr fun k => ?_
      rw [and_left_comm]
      refine and_congr_right fun hk => ?_
      obtain ⟨hpos', hle⟩ := autoCount_bounds point hpos
      rw [onlyBin_div hpos' hle (by omega : k < 2 ^ point.width) c, autoHits, hkind,
        List.mem_singleton]
    · refine exists_layout hpoint sort (layoutFits_automatic hpoint hkind slots hitems fun hw => ?_)
      by_contra hone
      exact h ⟨hw, eq_of_toInt_eq (by rw [show autoBinMax.toInt = 1 by omega]; rfl)⟩
    · have hspec := layoutSpec hpoint hlayout
      obtain ⟨hkey, -⟩ := llgCovKey_spec hpoint.width_pos hpoint.width_le value
      obtain ⟨b, hb, honly⟩ := hbin _ ((le_llgCovMask_iff hpoint.width_le).1 hkey)
      refine ⟨b, ?_, honly⟩
      have hfind : llgCovFind layout (point.llgCovKey (llgSv4Word value 0).toNat) = none := by
        cases hfind : llgCovFind layout (point.llgCovKey (llgSv4Word value 0).toNat) with
        | none => rfl
        | some seg =>
          obtain hremoved | hhits := (hspec.segments.exists_iff _ hkey).1
            ⟨seg, hspec.segments.separated.find_eq_some_iff.1 hfind⟩
          · exact absurd hremoved hkept
          · exact absurd (hitsOf_eq_nil hpoint (by simp [hkind]) _ _) hhits
      rw [llgCovHit, if_neg (by simp [hknown]), llgCovHitKey, hfind]
      simp only [hkind]
      rw [hspec.nAuto_eq, hn, hb]
      rfl

end LlgCovPoint

/-- A coverpoint without declared bins. -/
def plainPoint (width : ℕ) : LlgCovPoint where
  width
  signed := false
  kind := .auto
  keys := []
  bins := []

lemma plainPoint_wellFormed {width : ℕ} (hpos : 0 < width) (hle : width ≤ 64) :
    (plainPoint width).WellFormed where
  width_pos := hpos
  width_le := hle
  items_le := by simp [plainPoint]
  automatic := by simp [plainPoint]
  keys_sorted := by simp [plainPoint]
  keys_le := by simp [plainPoint]
  keys_length := by simp [plainPoint]

/-- The 64-bit values in three bins. -/
theorem autoPartition_iff_three : (plainPoint 64).AutoPartition 3 :=
  (LlgCovPoint.autoPartition_iff (plainPoint_wellFormed (by decide) le_rfl) rfl (by decide)).2
    (by decide)

/-- `option.auto_bin_max = 1` on a 64-bit coverpoint: the layout is not built, since the division of the
first key traps. -/
theorem autoBinMax_one_traps :
    (plainPoint 64).llgCovAutoBins 1 = 1 ∧
    (plainPoint 64).llgCovAutoBin 1 0 = .error "division by zero" ∧
    llgCovBuildLayout mergePieceSort (plainPoint 64) zeroSlots 1 = .error "division by zero" := by
  decide +kernel

end Lapligence.Coverage
