import Lapligence.Coverage.Automatic
import Lapligence.Coverage.Declarations

/-!
# What a layout says about the keys

`llgCovBuildLayout_eq_ok` takes a built layout apart.  `SegmentsSpec` relates its segments to the
declared bins value by value, and `mem_cover` its spans of coverable bins.
-/

namespace Lapligence.Coverage

open List Lapligence.Span

/-! ## Entries -/

namespace LlgCovEntry

/-- An entry that is moved to the begin of a segment gives the same counters. -/
lemma bin_shift (entry : LlgCovEntry) {lo begin key : ℕ} (hlo : lo ≤ begin) (hkey : begin ≤ key) :
    bin { entry with pos := entry.pos + (begin - lo) } (key - begin) = entry.bin (key - lo) := by
  have hpos : entry.pos + (begin - lo) + (key - begin) = entry.pos + (key - lo) := by omega
  simp only [bin, hpos]

lemma bin_step (entry : LlgCovEntry) (k : ℕ) :
    entry.bin k ≤ entry.bin (k + 1) ∧ entry.bin (k + 1) ≤ entry.bin k + 1 := by
  have hmin : ∀ m last : ℕ, (if m < last then m else last) = min m last := fun m last => by
    split_ifs <;> omega
  simp only [bin, hmin]
  split_ifs with hdiv
  · have := LlgCovPoint.min_div_step (pos_of_ne_zero hdiv) entry.last entry.pos k
    omega
  · omega

/-- The counters of an entry over a segment are an interval. -/
lemma holds_llgCovEntryBins (entry : LlgCovEntry) {lo hi : ℕ} (h : lo ≤ hi) (c : ℕ) :
    (entry.llgCovEntryBins lo hi).Holds c ↔
      ∃ key, (lo ≤ key ∧ key ≤ hi) ∧ entry.bin (key - lo) = c := by
  refine (exists_eq_iff_of_step entry.bin_step (Nat.zero_le (hi - lo)) c).symm.trans ⟨?_, ?_⟩
  · rintro ⟨k, ⟨-, hk⟩, rfl⟩
    exact ⟨lo + k, by omega, by rw [Nat.add_sub_cancel_left]⟩
  · rintro ⟨key, hkey, rfl⟩
    exact ⟨key - lo, by omega, rfl⟩

end LlgCovEntry

/-! ## Segments -/

namespace LlgCovPoint

variable (point : LlgCovPoint) (slots : ℕ → LlgCovSlotValue)

/-- The counters of the declared bins, in declaration order and after `nAuto` automatic ones, that
a value belongs to. -/
abbrev hitsOf (nAuto key : ℕ) : List (ℕ × ℕ) :=
  point.declaredHits slots key nAuto 0 point.bins

/-- The `illegal_bins` declarations that name a value. -/
abbrev illegalOf (key : ℕ) : List ℕ :=
  point.naming slots .illegal key 0 point.bins

/-- The number of items of all declarations. -/
def itemCount : ℕ :=
  (point.bins.map fun bin => bin.items.length).sum

/-- The segments of a layout decide for every key what a sample does. -/
structure SegmentsSpec (nAuto : ℕ) (segments : List LlgCovSeg) : Prop where
  separated : Span.Separated LlgCovSeg.span segments
  hi_le : ∀ seg ∈ segments, seg.span.hi ≤ point.llgCovMask
  removed_iff : ∀ seg ∈ segments, ∀ key, seg.span.Holds key →
    (seg.removed = true ↔ point.Removed slots key)
  hits : ∀ seg ∈ segments, ∀ key, seg.span.Holds key → seg.removed = false →
    (seg.entries.map fun e => (e.decl, e.bin (key - seg.span.lo))).Perm (point.hitsOf slots nAuto key)
  illegal : ∀ seg ∈ segments, ∀ key, seg.span.Holds key → seg.removed = true →
    ∀ d, (∃ e ∈ seg.entries, e.decl = d) ↔ d ∈ point.illegalOf slots key
  exists_iff : ∀ key ≤ point.llgCovMask, (∃ seg ∈ segments, seg.span.Holds key) ↔
    point.Removed slots key ∨ point.hitsOf slots nAuto key ≠ []
  entries_le : ∀ seg ∈ segments, seg.entries.length ≤ point.itemCount

variable {point} {slots}

variable {segments : List LlgCovSeg} {nAuto : ℕ}

/-- The pieces of the declarations, sorted in any way that `qsort` may, are cut into such segments. -/
theorem segmentsSpec (hpoint : point.WellFormed) {pieces sorted : List LlgCovPiece}
    (hdecls : point.DeclsSpec slots nAuto 0 point.bins pieces) (hperm : sorted.Perm pieces)
    (hsorted : sorted.Pairwise fun a b => a.span.lo ≤ b.span.lo) :
    point.SegmentsSpec slots nAuto (segmentLoop (pieceBounds sorted) [] sorted) := by
  have hmask := llgCovMask_le hpoint.width_le
  have hspans : ∀ p ∈ sorted, p.span.lo ≤ p.span.hi ∧ p.span.hi ≤ uint64Max := fun p hp =>
    (hdecls.span_le p (hperm.mem_iff.1 hp)).imp_right fun hhi => hhi.trans hmask
  obtain ⟨hsep, htop, hkeys⟩ := segments_spec hsorted hspans
  have hcovering : ∀ key, (covering sorted key).Perm (covering pieces key) := fun key =>
    hperm.filter _
  have hany : ∀ key, (covering sorted key).any (fun p => p.role ≠ .bins) = true ↔
      point.Removed slots key := by
    intro key
    rw [Removed, ← hdecls.removes key]
    simp [(hcovering key).mem_iff]
  -- the segment of a key, with the pieces that hold the key
  have hseg : ∀ seg ∈ segmentLoop (pieceBounds sorted) [] sorted, ∀ key, seg.span.Holds key →
      covering sorted key ≠ [] ∧ (∀ p ∈ covering sorted key, p.span.lo ≤ seg.span.lo) ∧
        seg = makeSegment seg.span.lo seg.span.hi (covering sorted key) := fun seg hseg key hholds =>
    (hkeys key (hholds.2.trans (htop seg hseg))).1 seg hseg hholds
  have hremoved : ∀ seg ∈ segmentLoop (pieceBounds sorted) [] sorted, ∀ key, seg.span.Holds key →
      seg.removed = (covering sorted key).any fun p => p.role ≠ .bins := fun seg hs key hholds =>
    congrArg LlgCovSeg.removed (hseg seg hs key hholds).2.2
  have hentries : ∀ seg ∈ segmentLoop (pieceBounds sorted) [] sorted, ∀ key, seg.span.Holds key →
      seg.entries = ((covering sorted key).filter fun p =>
        if seg.removed then p.role = .illegal else p.role = .bins).map fun p =>
          { p.entry with pos := p.entry.pos + (seg.span.lo - p.span.lo) } := by
    intro seg hs key hholds
    rw [hremoved seg hs key hholds]
    exact congrArg LlgCovSeg.entries (hseg seg hs key hholds).2.2
  refine ⟨hsep, fun seg hs => ?_, fun seg hs key hholds => ?_, fun seg hs key hholds hrem => ?_,
    fun seg hs key hholds hrem d => ?_, fun key hkey => ?_, fun seg hs => ?_⟩
  · -- some piece holds the last key of the segment
    obtain ⟨hne, -⟩ := hseg seg hs seg.span.hi ⟨hsep.nonempty seg hs, le_refl _⟩
    obtain ⟨p, hp⟩ := exists_mem_of_ne_nil _ hne
    obtain ⟨hp, hholds⟩ := mem_covering.1 hp
    exact hholds.2.trans (hdecls.span_le p (hperm.mem_iff.1 hp)).2
  · rw [hremoved seg hs key hholds, hany]
  · have hmoved : (seg.entries.map fun e => (e.decl, e.bin (key - seg.span.lo))) =
        ((covering sorted key).filter fun p => p.role = .bins).map fun p =>
          (p.entry.decl, p.entry.bin (key - p.span.lo)) := by
      rw [hentries seg hs key hholds, hrem, map_map]
      refine map_congr_left fun p hp => ?_
      have hlo := (hseg seg hs key hholds).2.1 p (mem_of_mem_filter hp)
      exact Prod.ext rfl (p.entry.bin_shift hlo hholds.1)
    rw [hmoved, hitsOf, ← hdecls.hits key]
    exact ((hcovering key).filter _).map _
  · rw [← hdecls.illegal key d, hentries seg hs key hholds, hrem]
    simp [(hcovering key).mem_iff, and_assoc]
  · have hcover : (∃ seg ∈ segmentLoop (pieceBounds sorted) [] sorted, seg.span.Holds key) ↔
        ∃ p, p ∈ covering pieces key := by
      constructor
      · rintro ⟨seg, hs, hholds⟩
        obtain ⟨p, hp⟩ := exists_mem_of_ne_nil _ (hseg seg hs key hholds).1
        exact ⟨p, (hcovering key).mem_iff.1 hp⟩
      · rintro ⟨p, hp⟩
        exact (hkeys key (hkey.trans hmask)).2
          (ne_nil_of_mem ((hcovering key).mem_iff.2 hp))
    rw [hcover, Removed, ← hdecls.removes key, hitsOf, ← hdecls.hits key, ne_eq, map_eq_nil_iff,
      filter_eq_nil_iff]
    constructor
    · rintro ⟨p, hp⟩
      by_cases hrole : p.role = .bins
      · exact .inr fun hnone => hnone p hp (decide_eq_true hrole)
      · exact .inl ⟨p, hp, hrole⟩
    · rintro (⟨p, hp, -⟩ | hsome)
      · exact ⟨p, hp⟩
      · by_contra hnone
        exact hsome fun p hp => absurd ⟨p, hp⟩ hnone
  · rw [hentries seg hs seg.span.lo ⟨le_refl _, hsep.nonempty seg hs⟩, length_map]
    calc _ ≤ (covering sorted seg.span.lo).length := length_filter_le _ _
      _ ≤ sorted.length := length_filter_le _ _
      _ = pieces.length := hperm.length_eq
      _ ≤ point.itemCount := hdecls.length_le

/-! ## Counters -/

lemma lt_binSize_of_mem_elements {bin : LlgCovBin} (hkind : bin.kind = .bins) {key e : ℕ}
    (he : e ∈ point.elements slots bin key) : e < point.binSize slots bin := by
  rw [elements] at he
  rw [binSize, hkind]
  cases hshape : bin.shape with
  | scalar =>
    simp only [hshape] at he ⊢
    split_ifs at he
    · exact Nat.lt_one_iff.2 (mem_singleton.1 he)
    · exact absurd he not_mem_nil
  | perValue =>
    simp only [hshape] at he ⊢
    simpa using lt_of_mem_positions he
  | count =>
    simp only [hshape] at he ⊢
    split_ifs at he with hcount
    · exact absurd he not_mem_nil
    · obtain ⟨k, -, rfl⟩ := mem_map.1 he
      omega

/-- The counters of a declaration lie between its base and that of the next. -/
lemma bounds_of_mem_hits {key n d : ℕ} {bins : List LlgCovBin} {hit : ℕ × ℕ}
    (h : hit ∈ point.declaredHits slots key n d bins ∨ hit ∈ point.defaultHits slots n d bins) :
    ∃ i, hit.1 = d + i ∧ i < bins.length ∧
      point.binBase slots n i bins ≤ hit.2 ∧ hit.2 < point.binBase slots n (i + 1) bins := by
  induction bins generalizing n d with
  | nil => simp [declaredHits, defaultHits] at h
  | cons bin bins ih =>
    rw [declaredHits, defaultHits, mem_append, mem_append, or_or_or_comm] at h
    rcases h with h | h
    · have hfirst : hit.1 = d ∧ n ≤ hit.2 ∧ hit.2 < n + point.binSize slots bin := by
        rcases h with h | h <;> split_ifs at h with hkind
        · obtain ⟨e, he, rfl⟩ := mem_map.1 h
          have := lt_binSize_of_mem_elements hkind he
          exact ⟨rfl, by omega, by omega⟩
        · exact absurd h not_mem_nil
        · obtain rfl := mem_singleton.1 h
          exact ⟨rfl, le_refl _, by simp [binSize, hkind]⟩
        · exact absurd h not_mem_nil
      refine ⟨0, hfirst.1, Nat.succ_pos _, hfirst.2.1, ?_⟩
      cases bins <;> exact hfirst.2.2
    · obtain ⟨i, hd, hi, hlo, hhi⟩ := ih h
      exact ⟨i + 1, by omega, Nat.succ_lt_succ hi, hlo, hhi⟩

lemma binBase_mono (n : ℕ) (bins : List LlgCovBin) : Monotone fun i => point.binBase slots n i bins := by
  refine monotone_nat_of_le_succ fun i => ?_
  induction i generalizing n bins with
  | zero =>
    cases bins with
    | nil => exact le_refl _
    | cons bin bins => cases bins <;> exact Nat.le_add_right _ _
  | succ i ih =>
    cases bins with
    | nil => exact le_refl _
    | cons => exact ih _ _

/-- A coverpoint with automatic bins has no declared ones. -/
lemma hitsOf_eq_nil (hpoint : point.WellFormed) (hkind : point.kind ≠ .explicit) (nAuto key : ℕ) :
    point.hitsOf slots nAuto key = [] := by
  have hbins : ∀ bin ∈ point.bins, bin.kind ≠ .bins := fun bin hbin =>
    (hpoint.automatic hkind bin hbin).1
  rw [hitsOf]
  generalize point.bins = bins at hbins
  suffices ∀ n d, point.declaredHits slots key n d bins = [] from this nAuto 0
  induction bins with
  | nil => exact fun _ _ => rfl
  | cons bin bins ih =>
    intro n d
    rw [declaredHits, if_neg (hbins bin mem_cons_self),
      ih fun b hb => hbins b (mem_cons_of_mem bin hb)]
    rfl

lemma autoHits_eq_nil (hkind : point.kind = .explicit) (nAuto key : ℕ) :
    point.autoHits nAuto key = [] := by
  rw [autoHits, hkind]

/-! ## Coverable bins -/

variable (point slots) in
/-- Some value that is not removed belongs to the bin with counter `c`, which is not a default bin. -/
def Coverable (nAuto c : ℕ) : Prop :=
  ∃ key ≤ point.llgCovMask, ¬point.Removed slots key ∧
    (c ∈ (point.hitsOf slots nAuto key).map Prod.snd ∨ c ∈ point.autoHits nAuto key)

/-- The spans of the segments hold the counters of the declared bins. -/
lemma holds_segmentCover (h : point.SegmentsSpec slots nAuto segments) (c : ℕ) :
    (∃ s ∈ segmentCover segments, s.Holds c) ↔ ∃ key ≤ point.llgCovMask,
      ¬point.Removed slots key ∧ c ∈ (point.hitsOf slots nAuto key).map Prod.snd := by
  have hhits : ∀ seg ∈ segments, seg.removed = false → ∀ key, seg.span.Holds key →
      (c ∈ (point.hitsOf slots nAuto key).map Prod.snd ↔
        ∃ e ∈ seg.entries, e.bin (key - seg.span.lo) = c) := by
    intro seg hseg hrem key hholds
    rw [← ((h.hits seg hseg key hholds hrem).map Prod.snd).mem_iff, map_map]
    simp
  constructor
  · rintro ⟨s, hs, hc⟩
    obtain ⟨seg, hseg, hs⟩ := mem_flatMap.1 hs
    split_ifs at hs with hrem
    · exact absurd hs not_mem_nil
    · obtain ⟨e, he, rfl⟩ := mem_map.1 hs
      obtain ⟨key, hholds, hbin⟩ :=
        (e.holds_llgCovEntryBins (h.separated.nonempty seg hseg) c).1 hc
      refine ⟨key, hholds.2.trans (h.hi_le seg hseg), ?_, ?_⟩
      · exact mt (h.removed_iff seg hseg key hholds).2 hrem
      · exact (hhits seg hseg (Bool.not_eq_true _ ▸ hrem) key hholds).2 ⟨e, he, hbin⟩
  · rintro ⟨key, hkey, hrem, hc⟩
    have hne : point.hitsOf slots nAuto key ≠ [] := fun hnil => by simp [hnil] at hc
    obtain ⟨seg, hseg, hholds⟩ := (h.exists_iff key hkey).2 (.inr hne)
    have hrem' := mt (h.removed_iff seg hseg key hholds).1 hrem
    obtain ⟨e, he, hbin⟩ := (hhits seg hseg (Bool.not_eq_true _ ▸ hrem') key hholds).1 hc
    refine ⟨e.llgCovEntryBins seg.span.lo seg.span.hi, mem_flatMap.2 ⟨seg, hseg, ?_⟩, ?_⟩
    · rw [if_neg hrem']
      exact mem_map_of_mem he
    · exact (e.holds_llgCovEntryBins (h.separated.nonempty seg hseg) c).2 ⟨key, hholds, hbin⟩

lemma segmentCover_le (h : point.SegmentsSpec slots nAuto segments)
    (htop : point.binBase slots nAuto point.bins.length point.bins ≤ uint64Max) :
    ∀ s ∈ segmentCover segments, s.lo ≤ s.hi ∧ s.hi ≤ uint64Max := by
  intro s hs
  have hlohi : s.lo ≤ s.hi := by
    obtain ⟨seg, -, hs⟩ := mem_flatMap.1 hs
    split_ifs at hs
    · exact absurd hs not_mem_nil
    · obtain ⟨e, -, rfl⟩ := mem_map.1 hs
      exact (monotone_nat_of_le_succ fun k => (e.bin_step k).1) (Nat.zero_le _)
  refine ⟨hlohi, ?_⟩
  -- the last counter of the span is one of a declaration
  obtain ⟨key, -, -, hc⟩ := (holds_segmentCover h s.hi).1 ⟨s, hs, hlohi, le_refl _⟩
  obtain ⟨hit, hhit, hhi⟩ := mem_map.1 hc
  obtain ⟨i, -, hi, -, hlt⟩ := bounds_of_mem_hits (.inl hhit)
  exact hhi ▸ hlt.le.trans ((binBase_mono nAuto point.bins (Nat.succ_le_of_lt hi)).trans htop)

lemma autoCount_nAuto (hpoint : point.WellFormed) (autoBinMax : BitVec 64) :
    point.AutoCount (point.nAuto autoBinMax) := by
  rw [AutoCount, nAuto]
  cases hkind : point.kind with
  | auto => exact llgCovAutoBins_bounds hpoint.width_pos autoBinMax
  | enum => rfl
  | explicit => rfl

lemma AutoCount.le (hpoint : point.WellFormed) (hn : point.AutoCount nAuto) :
    nAuto ≤ uint64Max := by
  rw [AutoCount] at hn
  cases hkind : point.kind with
  | auto =>
    simp only [hkind] at hn
    exact hn.2.1
  | enum =>
    simp only [hkind] at hn
    exact hn ▸ hpoint.keys_length.trans (by decide)
  | explicit =>
    simp only [hkind] at hn
    exact hn ▸ Nat.zero_le _

/-- The automatic spans hold the automatic bins of the values that are not removed. -/
lemma autoBins_spec (hpoint : point.WellFormed) (hn : point.AutoCount nAuto)
    (hsegs : point.SegmentsSpec slots nAuto segments)
    {spans : List Span} (h : point.autoBins nAuto segments = .ok spans) :
    point.AutoSpans nAuto (fun key => key ≤ point.llgCovMask ∧ ¬point.Removed slots key) spans := by
  rw [autoBins] at h
  split_ifs at h with hkind
  · obtain rfl := Except.ok.inj h
    refine ⟨fun c => ?_, by simp, fun hauto => by simp [hkind] at hauto⟩
    simp [autoHits_eq_nil hkind]
  · have hholds : ∀ key ≤ point.llgCovMask, (∀ seg ∈ segments, ¬seg.span.Holds key) ↔
        ¬point.Removed slots key := by
      intro key hkey
      have := hsegs.exists_iff key hkey
      rw [hitsOf_eq_nil hpoint hkind] at this
      simpa using not_congr this
    have hremoved : ∀ seg ∈ segments, seg.removed = true := by
      intro seg hseg
      have hlo : seg.span.Holds seg.span.lo := ⟨le_refl _, hsegs.separated.nonempty seg hseg⟩
      rw [hsegs.removed_iff seg hseg seg.span.lo hlo]
      by_contra hnot
      exact (hholds seg.span.lo (hlo.2.trans (hsegs.hi_le seg hseg))).2 hnot seg hseg hlo
    refine (autoCover_spec hpoint hkind hn hsegs.separated hremoved hsegs.hi_le (Nat.zero_le _)
      (fun _ _ => Nat.zero_le _) h).congr fun key => ?_
    rw [and_iff_right (Nat.zero_le key)]
    exact and_congr_right (hholds key)

end LlgCovPoint

/-! ## Layouts -/

/-- What the layout of a coverpoint consists of. -/
lemma llgCovBuildLayout_eq_ok {sort : PieceSort} {point : LlgCovPoint} {slots : ℕ → LlgCovSlotValue}
    {autoBinMax : BitVec 64} {layout : LlgCovLayout}
    (h : llgCovBuildLayout sort point slots autoBinMax = .ok layout) :
    ∃ decls autoSpans,
      point.declLoop slots ⟨point.nAuto autoBinMax, [], none, none, false, [], []⟩ 0 point.bins =
        .ok decls ∧
      layout.segments = segmentLoop (pieceBounds (sort.qsort decls.pieces)) []
        (sort.qsort decls.pieces) ∧
      point.autoBins (point.nAuto autoBinMax) layout.segments = .ok autoSpans ∧
      layout.cover = coverRanks 0 (merge uint64Max (segmentCover layout.segments ++ autoSpans)) ∧
      layout.nCoverable =
        ((merge uint64Max (segmentCover layout.segments ++ autoSpans)).map fun span =>
          span.hi - span.lo + 1).sum ∧
      layout.nAuto = point.nAuto autoBinMax ∧ layout.nBins = decls.nBins ∧
      layout.defaultBin = decls.defaultBin ∧ layout.defaultDecl = decls.defaultDecl ∧
      layout.defaultIllegal = decls.defaultIllegal ∧ layout.declBase = decls.declBase := by
  rw [llgCovBuildLayout] at h
  obtain ⟨decls, hdecls, h⟩ := bind_eq_ok h
  dsimp only at h
  split_ifs at h with hsize
  obtain ⟨autoSpans, hauto, h⟩ := bind_eq_ok h
  split_ifs at h with hcover
  obtain rfl := Except.ok.inj h
  exact ⟨decls, autoSpans, hdecls, rfl, hauto, rfl, rfl, rfl, rfl, rfl, rfl, rfl, rfl⟩

/-! ## Ranks -/

lemma map_fst_coverRanks (rank : ℕ) (spans : List Span) :
    (coverRanks rank spans).map Prod.fst = spans := by
  induction spans generalizing rank with
  | nil => rfl
  | cons s spans ih => rw [coverRanks, map_cons, ih]

/-- How many numbers of the spans come before `c`. -/
def rankOf (spans : List Span) (c : ℕ) : ℕ :=
  ((values spans).filter (· < c)).length

lemma length_filter_toList {s : Span} {c : ℕ} (h : s.Holds c) :
    (s.toList.filter (· < c)).length = c - s.lo := by
  obtain ⟨hlo, hhi⟩ := h
  have hsize : s.size = (c - s.lo) + (s.hi + 1 - c) := by
    rw [size]
    omega
  rw [toList, hsize, ← List.range'_append_1, filter_append,
    filter_eq_self.2 fun k hk => decide_eq_true ?_, filter_eq_nil_iff.2 fun k hk => ?_]
  · simp
  · rw [mem_range'_1] at hk
    simp only [decide_eq_true_eq]
    omega
  · rw [mem_range'_1] at hk
    omega

lemma rank_of_mem_coverRanks {spans : List Span} (h : Span.Separated id spans) {rank c : ℕ}
    {cover : Span × ℕ} (hmem : cover ∈ coverRanks rank spans) (hholds : cover.1.Holds c) :
    cover.2 + (c - cover.1.lo) = rank + rankOf spans c := by
  induction spans generalizing rank with
  | nil => exact absurd hmem not_mem_nil
  | cons s spans ih =>
    have hs : s.lo ≤ s.hi := h.nonempty s mem_cons_self
    have hlater : ∀ t ∈ spans, s.hi < t.lo := (pairwise_cons.1 h.sorted).1
    rw [rankOf, values_cons, filter_append, length_append]
    rcases mem_cons.1 hmem with rfl | hmem
    · -- the numbers of the later spans are larger
      rw [length_filter_toList hholds, filter_eq_nil_iff.2 fun k hk => ?_]
      · rfl
      · obtain ⟨t, ht, hk⟩ := mem_values.1 hk
        have := hlater t ht
        have hc : c ≤ s.hi := hholds.2
        have := hk.1
        simp only [decide_eq_true_eq]
        omega
    · have hlt : s.hi < c :=
        lt_of_lt_of_le (hlater _ (map_fst_coverRanks _ spans ▸ mem_map_of_mem hmem)) hholds.1
      rw [ih h.tail hmem, filter_eq_self.2 fun k hk => decide_eq_true ?_, length_toList,
        size, rankOf]
      · omega
      · exact (mem_toList.1 hk).2.trans_lt hlt

/-- The rank of a number among those of separated spans. -/
lemma find_coverRanks {spans : List Span} (h : Span.Separated id spans) (c : ℕ) :
    (find Prod.fst (coverRanks 0 spans) c).map (fun cover => cover.2 + (c - cover.1.lo)) =
      if ∃ s ∈ spans, s.Holds c then some (rankOf spans c) else none := by
  have hsep : Span.Separated Prod.fst (coverRanks 0 spans) := by
    refine ⟨fun cover hcover => ?_, ?_⟩
    · exact h.nonempty _ (map_fst_coverRanks 0 spans ▸ mem_map_of_mem hcover)
    · have := h.sorted
      rw [← map_fst_coverRanks 0 spans] at this
      exact pairwise_map.1 this
  cases hfind : find Prod.fst (coverRanks 0 spans) c with
  | none =>
    rw [hsep.find_eq_none_iff] at hfind
    rw [if_neg, Option.map_none]
    rintro ⟨s, hs, hholds⟩
    rw [← map_fst_coverRanks 0 spans] at hs
    obtain ⟨cover, hcover, rfl⟩ := mem_map.1 hs
    exact hfind cover hcover hholds
  | some cover =>
    obtain ⟨hmem, hholds⟩ := hsep.find_eq_some_iff.1 hfind
    rw [if_pos ⟨cover.1, map_fst_coverRanks 0 spans ▸ mem_map_of_mem hmem, hholds⟩,
      Option.map_some, rank_of_mem_coverRanks h hmem hholds, zero_add]

namespace LlgCovPoint

variable (point : LlgCovPoint) (slots : ℕ → LlgCovSlotValue)

/-- A built layout. -/
structure LayoutSpec (nAuto : ℕ) (layout : LlgCovLayout) : Prop where
  nAuto_eq : layout.nAuto = nAuto
  segments : point.SegmentsSpec slots nAuto layout.segments
  autoSpan_ne : point.kind = .auto → (∃ key ≤ point.llgCovMask, ¬point.Removed slots key) →
    point.autoSpan nAuto ≠ 0
  cover : ∃ spans, layout.cover = coverRanks 0 spans ∧ Span.Separated id spans ∧
    ∀ c, (∃ s ∈ spans, s.Holds c) ↔ point.Coverable slots nAuto c
  nCoverable_eq : layout.nCoverable = {c | point.Coverable slots nAuto c}.ncard
  default : (point.bins.filter isDefault).length ≤ 1 →
    match layout.defaultDecl with
    | none => point.defaultHits slots nAuto 0 point.bins = [] ∧ illegalDefaults 0 point.bins = []
    | some d =>
      if layout.defaultIllegal then
        point.defaultHits slots nAuto 0 point.bins = [] ∧ illegalDefaults 0 point.bins = [d]
      else ∃ n, layout.defaultBin = some n ∧
        point.defaultHits slots nAuto 0 point.bins = [(d, n)] ∧ illegalDefaults 0 point.bins = []
  declBase_eq : layout.declBase =
    (List.range point.bins.length).map fun d => point.binBase slots nAuto d point.bins
  nBins_eq : layout.nBins = point.binBase slots nAuto point.bins.length point.bins

variable {point} {slots}

/-- The layouts that `llg_cov_build_layout` builds. -/
theorem layoutSpec (hpoint : point.WellFormed) {sort : PieceSort} {autoBinMax : BitVec 64}
    {layout : LlgCovLayout} (h : llgCovBuildLayout sort point slots autoBinMax = .ok layout) :
    point.LayoutSpec slots (point.nAuto autoBinMax) layout := by
  obtain ⟨decls, autoSpans, hdecls, hsegments, hauto, hcover, hcoverable, hnAuto, hnBins, hdefaultBin,
    hdefaultDecl, hdefaultIllegal, hdeclBase⟩ := llgCovBuildLayout_eq_ok h
  have hn := autoCount_nAuto hpoint autoBinMax
  generalize point.nAuto autoBinMax = nAuto at hdecls hauto hnAuto hn ⊢
  have hnle := hn.le hpoint
  obtain ⟨⟨pieces, hpieces, hdeclsSpec⟩, hbins, htop, hbase⟩ :=
    declLoop_spec hpoint (fun _ hbin => hbin) hnle hdecls
  have hdefault := (declLoop_default hpoint (fun _ hbin => hbin) hnle hdecls).2
  rw [nil_append] at hpieces hbase
  have hsegs : point.SegmentsSpec slots nAuto layout.segments := by
    rw [hsegments, hpieces]
    exact segmentsSpec hpoint hdeclsSpec (sort.perm _) (sort.sorted _)
  obtain ⟨hautoHolds, hautoLe, hspan⟩ := autoBins_spec hpoint hn hsegs hauto
  have hle : ∀ s ∈ segmentCover layout.segments ++ autoSpans, s.lo ≤ s.hi ∧ s.hi ≤ uint64Max := by
    intro s hs
    exact (mem_append.1 hs).elim (segmentCover_le hsegs (hbins ▸ htop) s) (hautoLe s)
  obtain ⟨hsep, hmerge⟩ := merge_spec hle
  have hholds : ∀ c, (∃ s ∈ merge uint64Max (segmentCover layout.segments ++ autoSpans),
      s.Holds c) ↔ point.Coverable slots nAuto c := by
    intro c
    rw [hmerge, exists_mem_append, holds_segmentCover hsegs, hautoHolds, Coverable, ← exists_or]
    simp only [and_assoc, ← and_or_left]
  refine ⟨hnAuto, hsegs, hspan, ⟨_, hcover, hsep, hholds⟩, ?_, fun hone => ?_, ?_, ?_⟩
  · rw [hcoverable]
    simp only [← hholds]
    rw [hsep.ncard_eq]
    refine congrArg List.sum (map_congr_left fun s hs => ?_)
    have := hsep.nonempty s hs
    simp only [size, id] at this ⊢
    omega
  · rw [hdefaultDecl, hdefaultIllegal, hdefaultBin]
    exact hdefault hone rfl
  · rw [hdeclBase, hbase]
  · rw [hnBins, hbins]

end LlgCovPoint

end Lapligence.Coverage
