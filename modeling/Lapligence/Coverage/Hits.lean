import Lapligence.Coverage.LayoutSpec
import Mathlib.Algebra.Group.Action.Defs

/-!
# Samples of a coverpoint

What a sample does, said value by value: a removed value counts nowhere, other values count in the
elements of the declarations that name them, and values that no declaration names count in an automatic
bin or in the default bin.  `layout_refines_values` says that samples through a layout do this, and that
the layout's coverable bins are those that some value which is not removed belongs to.
-/

namespace Lapligence.Coverage

open Value List

/-! ## The definition -/

namespace LlgCovPoint

variable (point : LlgCovPoint) (slots : ℕ → LlgCovSlotValue)

/-- The sampled value as a number of the coverpoint's type. -/
def sampledValue (value : Sv4) : ℤ :=
  let bits := (llgSv4Word value 0).setWidth point.width
  if point.signed then bits.toInt else bits.toNat

/-- The declarations of the default that are neither `ignore_bins` nor `illegal_bins`. -/
abbrev defaultsOf (nAuto : ℕ) : List (ℕ × ℕ) :=
  point.defaultHits slots nAuto 0 point.bins

/-- The counters that a sample of a value increments. -/
def valueCounted (nAuto key : ℕ) (guards : Option (ℕ → Bool)) : List ℕ :=
  if point.Removed slots key then []
  else if point.hitsOf slots nAuto key ≠ [] then
    ((point.hitsOf slots nAuto key).filter fun hit => llgCovGuard point hit.1 guards).map Prod.snd
  else if point.kind = .explicit then
    ((point.defaultsOf slots nAuto).filter fun hit => llgCovGuard point hit.1 guards).map Prod.snd
  else point.autoHits nAuto key

/-- The illegal declarations that a sample of a value may report. -/
def valueIllegal (nAuto key : ℕ) (guards : Option (ℕ → Bool)) : List ℕ :=
  if point.Removed slots key then
    (point.illegalOf slots key).filter fun decl => llgCovGuard point decl guards
  else if point.hitsOf slots nAuto key = [] ∧ point.kind = .explicit then
    (illegalDefaults 0 point.bins).filter fun decl => llgCovGuard point decl guards
  else []

/-- A sample does what the definition says: the counters in some order, and one of the illegal
declarations if there are any. -/
def HitsAre (hits : LlgCovHits) (nAuto key : ℕ) (guards : Option (ℕ → Bool)) : Prop :=
  hits.counted.Perm (point.valueCounted slots nAuto key guards) ∧
    (hits.illegal = none ↔ point.valueIllegal slots nAuto key guards = []) ∧
    ∀ decl, hits.illegal = some decl → decl ∈ point.valueIllegal slots nAuto key guards

variable {point} {slots}

/-! ## Keys of samples -/

/-- The key of a sample is that of its value. -/
lemma llgCovKey_spec (hpos : 0 < point.width) (hle : point.width ≤ 64) (value : Sv4) :
    point.llgCovKey (llgSv4Word value 0).toNat ≤ point.llgCovMask ∧
      point.valueOf (point.llgCovKey (llgSv4Word value 0).toNat) = point.sampledValue value := by
  have hrange : point.llgCovTypeMin ≤ point.sampledValue value ∧
      point.sampledValue value ≤ point.llgCovTypeMax := by
    have hpow : (2 : ℤ) ^ point.width = 2 * 2 ^ (point.width - 1) := by
      rw [← pow_succ', Nat.sub_add_cancel hpos]
    have hmask : (point.llgCovMask : ℤ) = 2 ^ point.width - 1 := by
      rw [llgCovMask_eq hle, Nat.cast_sub (Nat.two_pow_pos _)]
      push_cast
      rfl
    rw [← sub_add_cancel point.llgCovTypeMax point.llgCovTypeMin, llgCovTypeMax_sub hpos hle, hmask,
      sampledValue, llgCovTypeMin]
    generalize (llgSv4Word value 0).setWidth point.width = bits
    have hlt : (bits.toNat : ℤ) < 2 ^ point.width := by exact_mod_cast bits.isLt
    have hlower := BitVec.le_toInt bits
    have hupper := BitVec.toInt_lt (x := bits)
    split_ifs <;> omega
  have hkey : point.llgCovNumKey (point.sampledValue value) =
      point.llgCovKey (llgSv4Word value 0).toNat := by
    have hmod : point.sampledValue value % 2 ^ point.width =
        ((llgSv4Word value 0).toNat : ℤ) % 2 ^ point.width := by
      have hcast : (2 : ℤ) ^ point.width = ((2 ^ point.width : ℕ) : ℤ) := by push_cast; rfl
      rw [sampledValue, hcast]
      split_ifs
      · rw [BitVec.toInt_eq_toNat_bmod, Int.bmod_emod, BitVec.toNat_setWidth, Int.natCast_emod,
          Int.emod_emod]
      · rw [BitVec.toNat_setWidth, Int.natCast_emod, Int.emod_emod]
    have hmask : ((llgSv4Word value 0).toNat : ℤ) % 2 ^ 64 = (llgSv4Word value 0).toNat :=
      Int.emod_eq_of_lt (Int.natCast_nonneg _) (by exact_mod_cast (llgSv4Word value 0).isLt)
    have hraw := and_llgCovMask hle ((llgSv4Word value 0).toNat : ℤ)
    rw [hmask, Int.toNat_natCast] at hraw
    rw [llgCovNumKey, llgCovKey, llgCovKey, and_llgCovMask hle, hmod, hraw]
  have hnum := llgCovNumKey_eq hpos hle hrange.1 hrange.2
  have hmax := llgCovTypeMax_sub hpos hle
  rw [valueOf_eq, ← hkey]
  omega

/-! ## Samples through a layout -/

variable {nAuto : ℕ}

lemma hitsAre_removed {seg : LlgCovSeg} {key : ℕ} (hremoved : point.Removed slots key)
    (hillegal : ∀ d, (∃ e ∈ seg.entries, e.decl = d) ↔ d ∈ point.illegalOf slots key)
    (guards : Option (ℕ → Bool)) :
    point.HitsAre slots ⟨[], ((seg.entries.filter fun e => llgCovGuard point e.decl guards).head?).map
      LlgCovEntry.decl⟩ nAuto key guards := by
  rw [HitsAre, valueCounted, valueIllegal, if_pos hremoved, if_pos hremoved]
  refine ⟨.refl _, ?_, fun d hd => ?_⟩
  · rw [Option.map_eq_none_iff, List.head?_eq_none_iff, filter_eq_nil_iff,
      filter_eq_nil_iff]
    constructor
    · intro hnone d hd
      obtain ⟨e, he, rfl⟩ := (hillegal d).2 hd
      exact hnone e he
    · intro hnone e he
      exact hnone e.decl ((hillegal e.decl).1 ⟨e, he, rfl⟩)
  · obtain ⟨e, he, rfl⟩ := Option.map_eq_some_iff.1 hd
    obtain ⟨he, hguard⟩ := mem_filter.1 (mem_of_mem_head? he)
    exact mem_filter.2 ⟨(hillegal e.decl).1 ⟨e, he, rfl⟩, hguard⟩

/-- A sample of any value does what the definition says. -/
theorem llgCovHitKey_spec (hpoint : point.WellFormed)
    (hone : (point.bins.filter isDefault).length ≤ 1) (hn : point.AutoCount nAuto)
    {layout : LlgCovLayout} (h : point.LayoutSpec slots nAuto layout) {key : ℕ}
    (hkey : key ≤ point.llgCovMask) (guards : Option (ℕ → Bool)) :
    ∃ hits, llgCovHitKey point layout key guards = .ok hits ∧
      point.HitsAre slots hits nAuto key guards := by
  have hsegs := h.segments
  rw [llgCovHitKey]
  cases hfind : llgCovFind layout key with
  | some seg =>
    obtain ⟨hseg, hholds⟩ := hsegs.separated.find_eq_some_iff.1 hfind
    refine ⟨_, rfl, ?_⟩
    rw [llgCovHitSegment]
    cases hremoved : seg.removed with
    | true =>
      exact hitsAre_removed ((hsegs.removed_iff seg hseg key hholds).1 hremoved)
        (hsegs.illegal seg hseg key hholds hremoved) guards
    | false =>
      have hnot : ¬point.Removed slots key := by
        rw [← hsegs.removed_iff seg hseg key hholds, hremoved]
        exact Bool.false_ne_true
      have hne : point.hitsOf slots nAuto key ≠ [] :=
        ((hsegs.exists_iff key hkey).1 ⟨seg, hseg, hholds⟩).resolve_left hnot
      have hperm := ((hsegs.hits seg hseg key hholds hremoved).filter
        fun hit => llgCovGuard point hit.1 guards).map Prod.snd
      rw [filter_map, map_map] at hperm
      have hcounted : point.valueCounted slots nAuto key guards =
          ((point.hitsOf slots nAuto key).filter fun hit => llgCovGuard point hit.1 guards).map
            Prod.snd := by
        rw [valueCounted, if_neg hnot, if_pos hne]
      have hillegal : point.valueIllegal slots nAuto key guards = [] := by
        rw [valueIllegal, if_neg hnot, if_neg fun hnil => hne hnil.1]
      rw [HitsAre, hcounted, hillegal]
      exact ⟨hperm, by simp, by simp⟩
  | none =>
    have hnone := hsegs.separated.find_eq_none_iff.1 hfind
    obtain ⟨hnot, hnil⟩ : ¬point.Removed slots key ∧ ¬point.hitsOf slots nAuto key ≠ [] :=
      not_or.1 fun hor => by
        obtain ⟨seg, hseg, hholds⟩ := (hsegs.exists_iff key hkey).2 hor
        exact hnone seg hseg hholds
    rw [ne_eq, not_not] at hnil
    have hcounted : point.valueCounted slots nAuto key guards =
        if point.kind = .explicit then
          ((point.defaultsOf slots nAuto).filter fun hit => llgCovGuard point hit.1 guards).map
            Prod.snd
        else point.autoHits nAuto key := by
      rw [valueCounted, if_neg hnot, if_neg (not_not.2 hnil)]
    have hillegal : point.valueIllegal slots nAuto key guards =
        if point.kind = .explicit then
          (illegalDefaults 0 point.bins).filter fun decl => llgCovGuard point decl guards
        else [] := by
      simp only [valueIllegal, if_neg hnot, hnil, true_and]
    simp only [HitsAre, hcounted, hillegal]
    cases hkind : point.kind with
    | auto =>
      have hspan := h.autoSpan_ne hkind ⟨key, hkey, hnot⟩
      have hpos : 0 < nAuto := by
        rw [AutoCount, hkind] at hn
        exact hn.1
      have hok : point.llgCovAutoBin nAuto key =
          .ok (if nAuto ≤ key / point.autoSpan nAuto then nAuto - 1
            else key / point.autoSpan nAuto) := by
        rw [llgCovAutoBin, if_neg hspan]
      simp only [h.nAuto_eq, hok]
      refine ⟨_, rfl, ?_, by simp, by simp⟩
      rw [(llgCovAutoBin_eq_ok hpoint.width_le hpos hok).1, autoHits, hkind]
      exact .refl _
    | enum =>
      refine ⟨_, rfl, ?_, by simp, by simp⟩
      simp only [lowerBound_keys hpoint.keys_sorted, autoHits, hkind,
        positions_eq_of_sorted hpoint.keys_sorted, zero_add]
      exact .refl _
    | explicit =>
      refine ⟨_, rfl, ?_⟩
      have hdefault := h.default hone
      rw [llgCovHitDefault]
      cases hdecl : layout.defaultDecl with
      | none =>
        simp only [hdecl] at hdefault
        simp [hdefault]
      | some d =>
        simp only [hdecl] at hdefault
        cases hill : layout.defaultIllegal with
        | true =>
          simp only [hill, if_true] at hdefault
          cases hguard : llgCovGuard point d guards <;> simp [hdefault, hguard]
        | false =>
          simp only [hill, Bool.false_eq_true, if_false] at hdefault
          obtain ⟨n, hbin, hhits, hnoIllegal⟩ := hdefault
          cases hguard : llgCovGuard point d guards <;>
            simp [hbin, hhits, hnoIllegal, hguard]

/-! ## Counters and ranks -/

variable (point slots) in
/-- Different bins have different counters; those of automatic bins come first. -/
structure CountersDistinct (nAuto : ℕ) : Prop where
  auto_lt : ∀ key, ∀ c ∈ point.autoHits nAuto key, c < nAuto
  le : ∀ key, ∀ hit ∈ point.hitsOf slots nAuto key ++ point.defaultsOf slots nAuto, nAuto ≤ hit.2
  decl_eq : ∀ key key', ∀ hit ∈ point.hitsOf slots nAuto key ++ point.defaultsOf slots nAuto,
    ∀ hit' ∈ point.hitsOf slots nAuto key' ++ point.defaultsOf slots nAuto,
      hit.2 = hit'.2 → hit.1 = hit'.1

theorem countersDistinct (hn : point.AutoCount nAuto) :
    point.CountersDistinct slots nAuto := by
  have hbounds : ∀ key, ∀ hit ∈ point.hitsOf slots nAuto key ++ point.defaultsOf slots nAuto,
      ∃ i, hit.1 = 0 + i ∧ i < point.bins.length ∧ point.binBase slots nAuto i point.bins ≤ hit.2 ∧
        hit.2 < point.binBase slots nAuto (i + 1) point.bins := by
    intro key hit hhit
    exact bounds_of_mem_hits (mem_append.1 hhit)
  have hmono : ∀ {i j}, i ≤ j → point.binBase slots nAuto i point.bins ≤
      point.binBase slots nAuto j point.bins := fun hij => binBase_mono nAuto point.bins hij
  refine ⟨fun key c hc => ?_, fun key hit hhit => ?_, fun key key' hit hhit hit' hhit' heq => ?_⟩
  · rw [AutoCount] at hn
    rw [autoHits] at hc
    cases hkind : point.kind with
    | auto =>
      simp only [hkind, mem_singleton] at hn hc
      omega
    | enum =>
      simp only [hkind] at hn hc
      have := Span.lt_of_mem_positions hc
      omega
    | explicit =>
      simp only [hkind] at hc
      exact absurd hc not_mem_nil
  · obtain ⟨i, -, -, hlo, -⟩ := hbounds key hit hhit
    exact (hmono (Nat.zero_le i)).trans hlo
  · obtain ⟨i, hi, -, hlo, hhi⟩ := hbounds key hit hhit
    obtain ⟨j, hj, -, hlo', hhi'⟩ := hbounds key' hit' hhit'
    rw [heq] at hlo hhi
    rcases lt_trichotomy i j with hlt | rfl | hgt
    · exact absurd (hhi.trans_le ((hmono hlt).trans hlo')) (lt_irrefl _)
    · rw [hi, hj]
    · exact absurd (hhi'.trans_le ((hmono hgt).trans hlo)) (lt_irrefl _)

/-- The ranks of the coverable bins count them from zero, in the order of their counters. -/
theorem llgCovCoverRank_eq {layout : LlgCovLayout} (h : point.LayoutSpec slots nAuto layout) (c r : ℕ) :
    llgCovCoverRank layout c = some r ↔ point.Coverable slots nAuto c ∧
      r = {b | point.Coverable slots nAuto b ∧ b < c}.ncard := by
  obtain ⟨spans, hcover, hsep, hholds⟩ := h.cover
  have hrank : {b | point.Coverable slots nAuto b ∧ b < c}.ncard = rankOf spans c := by
    have hset : {b | point.Coverable slots nAuto b ∧ b < c} =
        (((Span.values spans).filter (· < c)).toFinset : Set ℕ) := by
      ext b
      simp [Span.mem_values, ← hholds]
    rw [hset, Set.ncard_coe_finset, toFinset_card_of_nodup, rankOf]
    exact (hsep.values_sorted.imp ne_of_lt).filter _
  rw [llgCovCoverRank, hcover, find_coverRanks hsep, hrank, ← hholds]
  split_ifs with hc
  · simp [hc, eq_comm]
  · simp [hc]

/-! ## Layouts that are built -/

/-- The numbers of the layout fit in their types.  The last condition excludes the one case of automatic
bins whose width is a whole 64-bit range. -/
structure LayoutFits (point : LlgCovPoint) (slots : ℕ → LlgCovSlotValue) (autoBinMax : BitVec 64) :
    Prop where
  counters_le : point.binBase slots (point.nAuto autoBinMax) point.bins.length point.bins ≤ uint64Max
  values_le : ∀ bin ∈ point.bins, ∀ count, bin.kind = .bins → bin.shape = .count count →
    (llgCovBinCount slots count).1 ≠ 0 → (point.binValues slots bin).length ≤ uint64Max
  items_le : point.itemCount ≤ 2 ^ 15
  autoBinMax_gt : point.kind = .auto → point.width = 64 → 1 < autoBinMax.toInt

lemma autoSpan_ne_zero (hpoint : point.WellFormed) {autoBinMax : BitVec 64}
    (hmax : point.width = 64 → 1 < autoBinMax.toInt) :
    point.autoSpan (point.llgCovAutoBins autoBinMax) ≠ 0 := by
  obtain ⟨hpos, htop, hle⟩ := llgCovAutoBins_bounds hpoint.width_pos autoBinMax
  rw [autoSpan]
  split_ifs with h64 hmod
  · have hwide : 2 ≤ point.llgCovAutoBins autoBinMax := by
      have := hmax (le_antisymm hpoint.width_le h64)
      rw [llgCovAutoBins, if_neg (by omega), if_neg (by omega)]
      omega
    have hhalf : uint64Max / point.llgCovAutoBins autoBinMax ≤ uint64Max / 2 :=
      Nat.div_le_div_left hwide (by decide)
    have hlt : uint64Max / point.llgCovAutoBins autoBinMax + 1 < 2 ^ 64 :=
      (Nat.succ_le_succ hhalf).trans_lt (by decide)
    rw [Nat.mod_eq_of_lt hlt]
    exact Nat.succ_ne_zero _
  · exact (Nat.div_pos htop hpos).ne'
  · exact (Nat.div_pos (hle (by omega)) hpos).ne'

/-- The automatic spans are computed when the width of a share is not zero. -/
lemma exists_autoCover_eq_ok (hspan : point.kind = .auto → point.autoSpan nAuto ≠ 0)
    (segments : List LlgCovSeg) (key : ℕ) :
    ∃ spans, point.autoCover nAuto key segments = .ok spans ∧
      spans.length ≤ segments.length + 1 := by
  have hspans : ∀ lo hi, ∃ spans, point.llgCovAutoSpans nAuto lo hi = .ok spans ∧
      spans.length ≤ 1 := by
    intro lo hi
    rw [llgCovAutoSpans]
    split_ifs with hkind
    · simp only [llgCovAutoBin, if_neg (hspan hkind)]
      exact ⟨_, rfl, le_refl _⟩
    · refine ⟨_, rfl, ?_⟩
      split_ifs
      · exact le_refl _
      · exact Nat.zero_le _
  induction segments generalizing key with
  | nil => exact hspans key point.llgCovMask
  | cons seg segments ih =>
    obtain ⟨before, hbefore, hone⟩ : ∃ before, point.autoBefore nAuto key seg = .ok before ∧
        before.length ≤ 1 := by
      rw [autoBefore]
      split_ifs
      · exact hspans _ _
      · exact ⟨[], rfl, Nat.zero_le _⟩
    obtain ⟨after, hafter, hlength⟩ := ih (seg.span.hi + 1)
    rw [autoCover, hbefore, hafter]
    split_ifs with hremoved hend
    · obtain ⟨spans, hok, hlength⟩ := ih key
      exact ⟨spans, hok, hlength.trans (by simp)⟩
    · exact ⟨before, rfl, hone.trans (by simp)⟩
    · refine ⟨before ++ after, rfl, ?_⟩
      rw [length_append, length_cons]
      omega

lemma length_segmentCover_le (segments : List LlgCovSeg) :
    (segmentCover segments).length ≤ (segments.map fun segment => segment.entries.length).sum := by
  induction segments with
  | nil => exact le_refl _
  | cons seg segments ih =>
    rw [segmentCover, flatMap_cons, length_append, map_cons, sum_cons]
    refine add_le_add ?_ ih
    split_ifs
    · exact Nat.zero_le _
    · rw [length_map]

/-- A layout whose numbers fit is built. -/
theorem exists_layout (hpoint : point.WellFormed) (sort : PieceSort) {autoBinMax : BitVec 64}
    (hfits : LayoutFits point slots autoBinMax) :
    ∃ layout, llgCovBuildLayout sort point slots autoBinMax = .ok layout := by
  have hn := autoCount_nAuto hpoint autoBinMax
  obtain ⟨decls, hdecls⟩ : ∃ decls, point.declLoop slots
      ⟨point.nAuto autoBinMax, [], none, none, false, [], []⟩ 0 point.bins = .ok decls :=
    exists_declLoop_eq_ok hpoint (fun _ hbin => hbin) 0 hfits.counters_le hfits.values_le
  obtain ⟨⟨pieces, hpieces, hspec⟩, -⟩ := declLoop_spec hpoint (fun _ hbin => hbin) (hn.le hpoint) hdecls
  rw [nil_append] at hpieces
  rw [← hpieces] at hspec
  have hsegs := segmentsSpec hpoint hspec (sort.perm decls.pieces) (sort.sorted _)
  rw [llgCovBuildLayout, hdecls]
  simp only [bind, Except.bind]
  generalize hsegments : segmentLoop (pieceBounds (sort.qsort decls.pieces)) []
    (sort.qsort decls.pieces) = segments at hsegs ⊢
  have hlength : segments.length ≤ 2 ^ 16 := by
    have hbounds := hsegments ▸ length_segmentLoop_le (pieceBounds (sort.qsort decls.pieces)) []
      (sort.qsort decls.pieces)
    have hdouble := length_pieceBounds_le (sort.qsort decls.pieces)
    have hitems : decls.pieces.length ≤ point.itemCount := hspec.length_le
    have := hfits.items_le
    rw [(sort.perm decls.pieces).length_eq] at hdouble
    omega
  have hentries : (segments.map fun segment => segment.entries.length).sum ≤ 2 ^ 31 := by
    have hsum : (segments.map fun segment => segment.entries.length).sum ≤
        (segments.map fun segment => segment.entries.length).length • point.itemCount := by
      refine sum_le_card_nsmul _ _ fun n hn => ?_
      obtain ⟨seg, hseg, rfl⟩ := mem_map.1 hn
      exact hsegs.entries_le seg hseg
    rw [length_map, smul_eq_mul] at hsum
    calc _ ≤ segments.length * point.itemCount := hsum
      _ ≤ 2 ^ 16 * 2 ^ 15 := Nat.mul_le_mul hlength hfits.items_le
  obtain ⟨spans, hspans, hcount⟩ : ∃ spans, point.autoBins (point.nAuto autoBinMax) segments =
      .ok spans ∧ spans.length ≤ segments.length + 1 := by
    rw [autoBins]
    split_ifs with hkind
    · exact ⟨[], rfl, Nat.zero_le _⟩
    · refine exists_autoCover_eq_ok (fun hauto => ?_) segments 0
      rw [nAuto, hauto]
      exact autoSpan_ne_zero hpoint (hfits.autoBinMax_gt hauto)
  have hcover : (Span.merge uint64Max (segmentCover segments ++ spans)).length ≤ uint32Max := by
    have hmerge := Span.length_merge_le uint64Max (segmentCover segments ++ spans)
    have := length_segmentCover_le segments
    rw [length_append] at hmerge
    rw [uint32Max]
    omega
  rw [if_neg (by rw [uint32Max]; omega), hspans]
  simp only [if_neg (Nat.not_lt.2 hcover)]
  exact ⟨_, rfl⟩

end LlgCovPoint

/-! ## The refinement -/

/-- The layout of a coverpoint whose numbers fit is built.  A sample through a layout does what the
definition says about the sampled value, a value with unknown bits does nothing, the coverable bins are
as many as the bins besides the default that some value which is not removed belongs to, and their ranks
count them. -/
theorem layout_refines_values (sort : PieceSort) (point : LlgCovPoint) (slots : ℕ → LlgCovSlotValue)
    (autoBinMax : BitVec 64) (hpoint : point.WellFormed)
    (hone : (point.bins.filter LlgCovPoint.isDefault).length ≤ 1) :
    (point.LayoutFits slots autoBinMax →
      ∃ layout, llgCovBuildLayout sort point slots autoBinMax = .ok layout) ∧
    point.CountersDistinct slots (point.nAuto autoBinMax) ∧
    ∀ layout, llgCovBuildLayout sort point slots autoBinMax = .ok layout →
      (∀ value guards, sv4IsUnknown value = true →
        llgCovHit point layout value guards = .ok ⟨[], none⟩) ∧
      (∀ value guards, sv4IsUnknown value = false → ∃ key ≤ point.llgCovMask, ∃ hits,
        point.valueOf key = point.sampledValue value ∧
          llgCovHit point layout value guards = .ok hits ∧
          point.HitsAre slots hits (point.nAuto autoBinMax) key guards) ∧
      layout.nCoverable = {c | point.Coverable slots (point.nAuto autoBinMax) c}.ncard ∧
      ∀ c r, llgCovCoverRank layout c = some r ↔
        point.Coverable slots (point.nAuto autoBinMax) c ∧
          r = {b | point.Coverable slots (point.nAuto autoBinMax) b ∧ b < c}.ncard := by
  have hn := LlgCovPoint.autoCount_nAuto hpoint autoBinMax
  refine ⟨LlgCovPoint.exists_layout hpoint sort, LlgCovPoint.countersDistinct hn,
    fun layout hlayout => ?_⟩
  have hspec := LlgCovPoint.layoutSpec hpoint hlayout
  refine ⟨fun value guards hunknown => ?_, fun value guards hknown => ?_, hspec.nCoverable_eq,
    LlgCovPoint.llgCovCoverRank_eq hspec⟩
  · rw [llgCovHit, if_pos hunknown]
  · obtain ⟨hkey, hvalue⟩ := LlgCovPoint.llgCovKey_spec hpoint.width_pos hpoint.width_le value
    obtain ⟨hits, hok, hare⟩ := LlgCovPoint.llgCovHitKey_spec hpoint hone hn hspec hkey guards
    refine ⟨_, hkey, hits, hvalue, ?_, hare⟩
    rw [llgCovHit, if_neg (by simp [hknown]), hok]

/-- One way to sort the pieces. -/
def mergePieceSort : PieceSort where
  qsort := fun pieces => pieces.mergeSort fun a b => a.span.lo ≤ b.span.lo
  perm := fun pieces => mergeSort_perm pieces _
  sorted := fun pieces => by
    refine (pairwise_mergeSort (fun a b c hab hbc => ?_) (fun a b => ?_) pieces).imp
      of_decide_eq_true
    · exact decide_eq_true ((of_decide_eq_true hab).trans (of_decide_eq_true hbc))
    · simpa using le_total a.span.lo b.span.lo

/-- Slots that hold zeros. -/
def zeroSlots : ℕ → LlgCovSlotValue :=
  fun _ => ⟨0, false, false⟩

/-- A signed coverpoint of width 3 with `bins b[2] = {[-4:3], 1}`, `ignore_bins i = {0}`,
`illegal_bins l = {[2:3]}` and `bins d = default`. -/
def signedPoint : LlgCovPoint where
  width := 3
  signed := true
  kind := .explicit
  keys := []
  bins := [⟨.bins, .count (.const 2), none, [.keys ⟨0, 7⟩, .keys ⟨5, 5⟩]⟩,
    ⟨.ignore, .scalar, none, [.keys ⟨4, 4⟩]⟩, ⟨.illegal, .scalar, none, [.keys ⟨6, 7⟩]⟩,
    ⟨.default, .scalar, none, []⟩]

theorem layout_refines_values_signedPoint :
    ∃ layout, llgCovBuildLayout mergePieceSort signedPoint zeroSlots 64 = .ok layout ∧
      layout.nCoverable = {c | signedPoint.Coverable zeroSlots 0 c}.ncard := by
  have hpoint : signedPoint.WellFormed := by
    refine ⟨by decide, by decide, ?_, by decide, by decide, by decide, by decide⟩
    simp [signedPoint, LlgCovPoint.llgCovMask]
  obtain ⟨hbuild, -, hlayout⟩ := layout_refines_values mergePieceSort signedPoint zeroSlots 64 hpoint
    (by decide)
  have hvalues : ∀ bin ∈ signedPoint.bins,
      (signedPoint.binValues zeroSlots bin).length ≤ uint64Max := by decide +kernel
  obtain ⟨layout, hok⟩ := hbuild ⟨by decide +kernel, fun bin hbin _ _ _ _ => hvalues bin hbin,
    by decide, by decide⟩
  exact ⟨layout, hok, (hlayout layout hok).2.2.1⟩

/-- A coverpoint of width 1 with `bins d = default` only. -/
def defaultPoint : LlgCovPoint where
  width := 1
  signed := false
  kind := .explicit
  keys := []
  bins := [⟨.default, .scalar, none, []⟩]

/-- Every value counts in the default bin, which is not coverable. -/
theorem default_not_coverable :
    ∃ layout, llgCovBuildLayout mergePieceSort defaultPoint zeroSlots 64 = .ok layout ∧
      (∀ key ≤ defaultPoint.llgCovMask, ¬defaultPoint.Removed zeroSlots key ∧
        llgCovHitKey defaultPoint layout key none = .ok ⟨[0], none⟩) ∧
      layout.nCoverable = 0 := by
  exact ⟨⟨1, 0, some 0, some 0, false, [], [], 0, [0], [0]⟩, by decide +kernel, by decide +kernel, rfl⟩

end Lapligence.Coverage
