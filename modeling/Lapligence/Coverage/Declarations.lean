import Lapligence.Coverage.Segments
import Lapligence.Coverage.ValueBins

/-!
# The pieces of the declarations

`PieceSpec` says what the pieces of one declaration have to do with its values; `declLoop_spec` says
it of the whole loop over the declarations.
-/

namespace Lapligence.Coverage

open List Lapligence.Span Except

/-! ## Arrays -/

/-- The counters that the pieces of an array give for a key are those of its places in the list of
values. -/
lemma arrayPieces_hits (entry : LlgCovEntry) (hdiv : entry.div ≠ 0) (spans : List Span) (key : ℕ) :
    (covering (arrayPieces entry spans) key).map
        (fun p => p.entry.bin (key - p.span.lo)) =
      (positions key (values spans) entry.pos).map fun k =>
        entry.base + min (k / entry.div) entry.last := by
  rw [positions_values, covering, arrayPieces, filter_map, map_map, map_map]
  refine map_congr_left fun p _ => ?_
  simp only [Function.comp, LlgCovEntry.bin, if_pos hdiv]
  congr 1
  split_ifs <;> omega

variable {spans : List Span}

lemma mem_offsets {i : ℕ} {p : Span × ℕ} (hp : p ∈ offsets i spans) :
    p.1 ∈ spans := by
  induction spans generalizing i with
  | nil => exact absurd hp not_mem_nil
  | cons s spans ih =>
    rcases mem_cons.1 hp with rfl | hp
    · exact mem_cons_self
    · exact mem_cons_of_mem s (ih hp)

lemma mem_arrayPieces {entry : LlgCovEntry} {p : LlgCovPiece} (hp : p ∈ arrayPieces entry spans) :
    p.span ∈ spans ∧ p.entry.decl = entry.decl ∧ p.role = .bins := by
  obtain ⟨o, ho, rfl⟩ := mem_map.1 hp
  exact ⟨mem_offsets ho, rfl, rfl⟩

/-- The number of values, when it fits in 64 bits. -/
lemma countValues_eq (what : String)
    (hspans : ∀ span ∈ spans, span.lo ≤ span.hi ∧ span.hi ≤ uint64Max) (values : ℕ)
    (hvalues : values ≤ uint64Max) :
    countValues what values spans =
      if values + (Span.values spans).length ≤ uint64Max then
        .ok (values + (Span.values spans).length) else .error what := by
  induction spans generalizing values with
  | nil => simp [countValues, hvalues]
  | cons span spans ih =>
    obtain ⟨hlo, hhi⟩ := hspans span mem_cons_self
    have hspans := fun s hs => hspans s (mem_cons_of_mem span hs)
    have hsize : span.size ≤ 2 ^ 64 ∧ llgCovSpanSize span = span.size % 2 ^ 64 ∧ 0 < span.size := by
      rw [llgCovSpanSize, size]
      simp only [uint64Max] at hhi
      refine ⟨by omega, ?_, by omega⟩
      congr 1
      omega
    have hmax : uint64Max + 1 = 2 ^ 64 := rfl
    obtain ⟨hle, hmod, hpos⟩ := hsize
    rw [countValues, values_cons, length_append, length_toList, hmod]
    rcases Nat.lt_or_eq_of_le hle with hlt | heq
    · rw [Nat.mod_eq_of_lt hlt]
      by_cases hfit : uint64Max - values < span.size
      · rw [if_pos (.inr hfit), if_neg (by omega)]
      · rw [if_neg (by omega), ih hspans _ (by omega), add_assoc]
    · rw [heq, Nat.mod_self, if_pos (.inl rfl), if_neg (by omega)]

lemma countValues_eq_ok {what : String} {n : ℕ}
    (hspans : ∀ span ∈ spans, span.lo ≤ span.hi ∧ span.hi ≤ uint64Max)
    (h : countValues what 0 spans = .ok n) :
    n = (values spans).length ∧ (values spans).length ≤ uint64Max := by
  rw [countValues_eq what hspans 0 (Nat.zero_le _)] at h
  split_ifs at h with hle
  obtain rfl := ok.inj h
  omega

/-! ## One declaration -/

namespace LlgCovPoint

variable (point : LlgCovPoint) (slots : ℕ → LlgCovSlotValue)

/-- The pieces of declaration `d`, whose counters begin at `n`. -/
structure PieceSpec (d n : ℕ) (bin : LlgCovBin) (pieces : List LlgCovPiece) : Prop where
  span_le : ∀ p ∈ pieces, p.span.lo ≤ p.span.hi ∧ p.span.hi ≤ point.llgCovMask
  decl_eq : ∀ p ∈ pieces, p.entry.decl = d
  role_eq : ∀ p ∈ pieces, p.role = bin.kind
  kind_ne : pieces ≠ [] → bin.kind ≠ .default ∧ bin.kind ≠ .illegalDefault
  hits : bin.kind = .bins → ∀ key,
    (covering pieces key).map (fun p => p.entry.bin (key - p.span.lo)) =
      (point.elements slots bin key).map (n + ·)
  removes : bin.kind = .ignore ∨ bin.kind = .illegal → ∀ key,
    (∃ p ∈ pieces, p.span.Holds key) ↔ key ∈ point.binValues slots bin

/-- The numbers of a declaration fit in 64 bits when `n` counters come before. -/
def Fits (n : ℕ) (bin : LlgCovBin) : Prop :=
  n + point.binSize slots bin ≤ uint64Max ∧
    ∀ count, bin.kind = .bins → bin.shape = .count count → (llgCovBinCount slots count).1 ≠ 0 →
      (point.binValues slots bin).length ≤ uint64Max

/-- What one declaration adds to the layout. -/
structure DeclAdds (st st' : LayoutDecls) (d : ℕ) (bin : LlgCovBin) : Prop where
  nBins_eq : st'.nBins = st.nBins + point.binSize slots bin
  pieces : ∃ pieces, st'.pieces = st.pieces ++ pieces ∧
    point.PieceSpec slots d st.nBins bin pieces ∧ pieces.length ≤ bin.items.length
  declBase_eq : st'.declBase = st.declBase ++ [st.nBins]
  defaults : bin.kind ≠ .default → bin.kind ≠ .illegalDefault →
    st'.defaultBin = st.defaultBin ∧ st'.defaultDecl = st.defaultDecl ∧
      st'.defaultIllegal = st.defaultIllegal
  isDefault : bin.kind = .default →
    st'.defaultBin = some st.nBins ∧ st'.defaultDecl = some d ∧ st'.defaultIllegal = false
  isIllegalDefault : bin.kind = .illegalDefault →
    st'.defaultDecl = some d ∧ st'.defaultIllegal = true

variable {point} {slots}
variable {bin : LlgCovBin} {bins : List LlgCovBin} {st st' : LayoutDecls} {d n : ℕ}

section Pieces

variable (slots) (hpoint : point.WellFormed) (hbin : bin ∈ point.bins)

include hpoint hbin

/-- The merged ranges of a declaration. -/
lemma mergedSpans_spec :
    Span.Separated id (merge uint64Max (point.binSpans slots bin)) ∧
      (∀ key, (∃ s ∈ merge uint64Max (point.binSpans slots bin), s.Holds key) ↔
        key ∈ point.binValues slots bin) ∧
      ∀ s ∈ merge uint64Max (point.binSpans slots bin),
        s.lo ≤ s.hi ∧ s.hi ≤ point.llgCovMask := by
  have hle := llgCovMask_le hpoint.width_le
  obtain ⟨hsep, hholds⟩ := merge_spec fun s hs =>
    (mem_binSpans hpoint hbin hs).imp_right fun hhi => hhi.trans hle
  have hmem : ∀ key, (∃ s ∈ merge uint64Max (point.binSpans slots bin), s.Holds key) ↔
      key ∈ point.binValues slots bin := by
    intro key
    rw [hholds, binValues_eq hpoint hbin, mem_values]
  refine ⟨hsep, hmem, fun s hs => ⟨hsep.nonempty s hs, ?_⟩⟩
  -- the largest key of a range is a value of the declaration
  obtain ⟨t, ht, hholds⟩ := (hholds s.hi).1 ⟨s, hs, hsep.nonempty s hs, le_refl _⟩
  exact hholds.2.trans (mem_binSpans hpoint hbin ht).2

/-- The pieces of a scalar bin and of ignored and illegal values. -/
lemma pieceSpec_scalar (hkind : bin.kind ≠ .default ∧ bin.kind ≠ .illegalDefault)
    (hshape : bin.kind = .bins → bin.shape = .scalar) (d n : ℕ) :
    point.PieceSpec slots d n bin ((merge uint64Max (point.binSpans slots bin)).map
      fun span => ⟨span, ⟨n, 0, 0, 0, d⟩, bin.kind⟩) := by
  obtain ⟨hsep, hmem, hle⟩ := mergedSpans_spec slots hpoint hbin
  refine ⟨?_, ?_, ?_, fun _ => hkind, fun hbins key => ?_, fun _ key => ?_⟩
  · rw [forall_mem_map]
    exact hle
  · rw [forall_mem_map]
    exact fun _ _ => rfl
  · rw [forall_mem_map]
    exact fun _ _ => rfl
  · have hlength := hsep.filter_length_le key
    have hnil : (merge uint64Max (point.binSpans slots bin)).filter (fun s => s.Holds key) = [] ↔
        key ∉ point.binValues slots bin := by
      rw [← hmem, filter_eq_nil_iff]
      simp
    rw [elements, hshape hbins, covering, filter_map, map_map]
    simp only [Function.comp_def, id_eq] at hlength ⊢
    generalize (merge uint64Max (point.binSpans slots bin)).filter
      (fun s => decide (s.Holds key)) = held at hlength hnil
    rcases held with _ | ⟨s, _ | ⟨s', rest⟩⟩
    · rw [if_neg (hnil.1 rfl)]
      rfl
    · rw [if_pos (by simpa using hnil)]
      rfl
    · simp at hlength
  · rw [← hmem]
    simp

variable {slots}

/-- The pieces of `b[]`. -/
lemma pieceSpec_perValue (hkind : bin.kind = .bins) (hshape : bin.shape = .perValue)
    (hfit : (point.binValues slots bin).toFinset.card ≤ uint64Max) (d n : ℕ) :
    point.PieceSpec slots d n bin (arrayPieces ⟨n, 0, 1, uint64Max, d⟩
      (merge uint64Max (point.binSpans slots bin))) := by
  obtain ⟨hsep, hmem, hle⟩ := mergedSpans_spec slots hpoint hbin
  have hsort : values (merge uint64Max (point.binSpans slots bin)) =
      (point.binValues slots bin).toFinset.sort := hsep.values_eq_sort fun key => (hmem key).symm
  refine ⟨fun p hp => hle _ (mem_arrayPieces hp).1, fun p hp => (mem_arrayPieces hp).2.1,
    fun p hp => (mem_arrayPieces hp).2.2.trans hkind.symm, fun _ => by simp [hkind],
    fun _ key => ?_, fun hremoved => by simp [hkind] at hremoved⟩
  rw [arrayPieces_hits _ (by simp), hsort, elements, hshape]
  refine map_congr_left fun k hk => ?_
  have hlt : k < (point.binValues slots bin).toFinset.card := by
    simpa using lt_of_mem_positions hk
  simp only [Nat.div_one]
  omega

/-- The pieces of `b[N]`. -/
lemma pieceSpec_count (hkind : bin.kind = .bins) {count : BinCount} (hshape : bin.shape = .count count)
    (hcount : (llgCovBinCount slots count).1 ≠ 0) (d n : ℕ) {values : ℕ}
    (hvalues : values = (point.binValues slots bin).length) :
    point.PieceSpec slots d n bin (arrayPieces ⟨n, 0,
      if (llgCovBinCount slots count).1 ≤ values then values / (llgCovBinCount slots count).1 else 1,
      (llgCovBinCount slots count).1 - 1, d⟩ (point.binSpans slots bin)) := by
  have hdiv : (if (llgCovBinCount slots count).1 ≤ values then
      values / (llgCovBinCount slots count).1 else 1) =
      max 1 (values / (llgCovBinCount slots count).1) := by
    split_ifs with hle
    · have := Nat.div_pos hle (pos_of_ne_zero hcount)
      omega
    · rw [Nat.div_eq_of_lt (Nat.lt_of_not_le hle)]
      rfl
  refine ⟨fun p hp => mem_binSpans hpoint hbin (mem_arrayPieces hp).1,
    fun p hp => (mem_arrayPieces hp).2.1, fun p hp => (mem_arrayPieces hp).2.2.trans hkind.symm,
    fun _ => by simp [hkind], fun _ key => ?_, fun hremoved => by simp [hkind] at hremoved⟩
  rw [hdiv, arrayPieces_hits _ (by simp only; omega), ← binValues_eq hpoint hbin, elements, hshape]
  dsimp only
  rw [if_neg hcount, map_map, hvalues]
  rfl

end Pieces

lemma pieceSpec_nil (d n : ℕ) (hhits : bin.kind = .bins → ∀ key, point.elements slots bin key = [])
    (hremoves : bin.kind ≠ .ignore ∧ bin.kind ≠ .illegal) : point.PieceSpec slots d n bin [] :=
  ⟨by simp, by simp, by simp, by simp, fun hbins key => by simp [hhits hbins key, covering],
    fun h => by simp [hremoves] at h⟩

lemma llgCovAddBins_eq_ok {total more : ℕ} (h : llgCovAddBins total more = .ok n) :
    n = total + more ∧ n ≤ uint64Max := by
  rw [llgCovAddBins] at h
  split_ifs at h with hbad
  obtain rfl := ok.inj h
  exact ⟨rfl, by omega⟩

lemma declAdds_add {pieces : List LlgCovPiece}
    {size : ℕ} (hkind : bin.kind ≠ .default ∧ bin.kind ≠ .illegalDefault)
    (hn : n = st.nBins + point.binSize slots bin)
    (hpieces : point.PieceSpec slots d st.nBins bin pieces)
    (hlength : pieces.length ≤ bin.items.length) :
    point.DeclAdds slots st (st.add pieces size n) d bin :=
  ⟨hn, ⟨pieces, rfl, hpieces, hlength⟩, rfl, fun _ _ => ⟨rfl, rfl, rfl⟩,
    fun h => absurd h hkind.1, fun h => absurd h hkind.2⟩

lemma length_binSpans_le (bin : LlgCovBin) : (point.binSpans slots bin).length ≤ bin.items.length :=
  length_filterMap_le _ _

lemma length_arrayPieces (entry : LlgCovEntry) (spans : List Span) :
    (arrayPieces entry spans).length = spans.length := by
  have hlength : ∀ i, (offsets i spans).length = spans.length := by
    induction spans with
    | nil => exact fun _ => rfl
    | cons s spans ih => exact fun i => by simp [offsets, ih]
  simp [arrayPieces, hlength]

lemma length_mergedSpans_le (bin : LlgCovBin) :
    (merge uint64Max (point.binSpans slots bin)).length ≤ bin.items.length :=
  (length_merge_le _ _).trans (length_binSpans_le bin)

/-- A declaration adds its pieces and counters. -/
lemma declStep_adds (hpoint : point.WellFormed) (hbin : bin ∈ point.bins)
    (hst : st.nBins ≤ uint64Max) (h : point.declStep slots st d bin = .ok st') :
    point.DeclAdds slots st st' d bin ∧ st'.nBins ≤ uint64Max := by
  have hmask := llgCovMask_le hpoint.width_le
  cases hkind : bin.kind with
  | default =>
    simp only [declStep, hkind] at h
    obtain ⟨n, hn, h⟩ := bind_eq_ok h
    obtain rfl := ok.inj h
    obtain ⟨rfl, hle⟩ := llgCovAddBins_eq_ok hn
    refine ⟨⟨by simp [LayoutDecls.add, binSize, hkind], ⟨[], rfl, ?_, Nat.zero_le _⟩, rfl, ?_, ?_, ?_⟩,
      hle⟩
    · exact pieceSpec_nil _ _ (by simp [hkind]) (by simp [hkind])
    · exact fun hne => absurd hkind hne
    · exact fun _ => ⟨rfl, rfl, rfl⟩
    · exact fun hill => by simp [hkind] at hill
  | illegalDefault =>
    simp only [declStep, hkind] at h
    obtain rfl := ok.inj h
    refine ⟨⟨by simp [LayoutDecls.add, binSize, hkind], ⟨[], rfl, ?_, Nat.zero_le _⟩, rfl, ?_, ?_, ?_⟩,
      hst⟩
    · exact pieceSpec_nil _ _ (by simp [hkind]) (by simp [hkind])
    · exact fun _ hne => absurd hkind hne
    · exact fun hdef => by simp [hkind] at hdef
    · exact fun _ => ⟨rfl, rfl⟩
  | ignore | illegal =>
    simp only [declStep, hkind] at h
    obtain rfl := ok.inj h
    have hspec := pieceSpec_scalar slots hpoint hbin (by simp [hkind]) (by simp [hkind]) d
      st.nBins
    rw [hkind] at hspec
    refine ⟨declAdds_add (by simp [hkind]) (by simp [binSize, hkind]) hspec ?_, hst⟩
    simpa using length_mergedSpans_le bin
  | bins =>
    cases hshape : bin.shape with
    | scalar =>
      simp only [declStep, hkind, hshape] at h
      obtain ⟨n, hn, h⟩ := bind_eq_ok h
      obtain rfl := ok.inj h
      obtain ⟨rfl, hle⟩ := llgCovAddBins_eq_ok hn
      have hspec := pieceSpec_scalar slots hpoint hbin (by simp [hkind]) (by simp [hshape])
        d st.nBins
      rw [hkind] at hspec
      refine ⟨declAdds_add (by simp [hkind]) (by simp [binSize, hkind, hshape]) hspec ?_, hle⟩
      simpa using length_mergedSpans_le bin
    | perValue =>
      obtain ⟨hsep, hmem, hspans⟩ := mergedSpans_spec slots hpoint hbin
      simp only [declStep, hkind, hshape] at h
      obtain ⟨pos, hpos, h⟩ := bind_eq_ok h
      have hcard : (values (merge uint64Max (point.binSpans slots bin))).length =
          point.binSize slots bin := by
        rw [hsep.values_eq_sort fun key => (hmem key).symm, binSize, hkind, hshape]
        simp
      obtain ⟨rfl, hcardle⟩ := countValues_eq_ok
        (fun s hs => (hspans s hs).imp_right fun hhi => hhi.trans hmask) hpos
      rw [hcard] at hcardle h
      have hspec := pieceSpec_perValue hpoint hbin hkind hshape
        (by simpa [binSize, hkind, hshape] using hcardle) d st.nBins
      have hlength : (arrayPieces ⟨st.nBins, 0, 1, uint64Max, d⟩
          (merge uint64Max (point.binSpans slots bin))).length ≤ bin.items.length := by
        rw [length_arrayPieces]
        exact length_mergedSpans_le bin
      split_ifs at h with hzero
      · obtain ⟨n, hn, h⟩ := bind_eq_ok h
        obtain rfl := ok.inj h
        obtain ⟨rfl, hle⟩ := llgCovAddBins_eq_ok hn
        exact ⟨declAdds_add (by simp [hkind]) rfl hspec hlength, hle⟩
      · obtain rfl := ok.inj h
        exact ⟨declAdds_add (by simp [hkind]) (by omega) hspec hlength, hst⟩
    | count =>
      simp only [declStep, hkind, hshape] at h
      split_ifs at h with hcount
      · obtain rfl := ok.inj h
        refine ⟨declAdds_add (by simp [hkind]) (by simp [binSize, hkind, hshape, hcount]) ?_
          (Nat.zero_le _), hst⟩
        exact pieceSpec_nil _ _ (fun _ key => by simp [elements, hshape, hcount]) (by simp [hkind])
      · obtain ⟨values, hvalues, h⟩ := bind_eq_ok h
        obtain ⟨n, hn, h⟩ := bind_eq_ok h
        obtain rfl := ok.inj h
        obtain ⟨rfl, hle⟩ := llgCovAddBins_eq_ok hn
        obtain ⟨rfl, -⟩ := countValues_eq_ok (fun s hs => (mem_binSpans hpoint hbin hs).imp_right
          fun hhi => hhi.trans hmask) hvalues
        rw [← binValues_eq hpoint hbin]
        refine ⟨declAdds_add (by simp [hkind]) (by simp [binSize, hkind, hshape])
          (pieceSpec_count hpoint hbin hkind hshape hcount d st.nBins rfl) ?_, hle⟩
        rw [length_arrayPieces]
        exact length_binSpans_le bin

/-! ## The loop -/

variable (point slots) in
/-- What the pieces of the declarations `bins`, from index `d` on and with `n` counters before them,
say about the keys. -/
structure DeclsSpec (n d : ℕ) (bins : List LlgCovBin) (pieces : List LlgCovPiece) : Prop where
  span_le : ∀ p ∈ pieces, p.span.lo ≤ p.span.hi ∧ p.span.hi ≤ point.llgCovMask
  hits : ∀ key, ((covering pieces key).filter fun p => p.role = .bins).map
    (fun p => (p.entry.decl, p.entry.bin (key - p.span.lo))) = point.declaredHits slots key n d bins
  removes : ∀ key, (∃ p ∈ covering pieces key, p.role ≠ .bins) ↔
    ∃ bin ∈ bins, (bin.kind = .ignore ∨ bin.kind = .illegal) ∧ key ∈ point.binValues slots bin
  illegal : ∀ key e, (∃ p ∈ covering pieces key, p.role = .illegal ∧ p.entry.decl = e) ↔
    e ∈ point.naming slots .illegal key d bins
  length_le : pieces.length ≤ (bins.map fun bin => bin.items.length).sum

lemma PieceSpec.removed_of_mem {ps : List LlgCovPiece}
    (h : point.PieceSpec slots d n bin ps) {p : LlgCovPiece} (hp : p ∈ ps) (hne : bin.kind ≠ .bins) :
    bin.kind = .ignore ∨ bin.kind = .illegal := by
  have hkinds := h.kind_ne (ne_nil_of_mem hp)
  cases hkind : bin.kind with
  | bins => exact absurd hkind hne
  | ignore => exact .inl rfl
  | illegal => exact .inr rfl
  | default => exact absurd hkind hkinds.1
  | illegalDefault => exact absurd hkind hkinds.2

lemma DeclsSpec.nil (n d : ℕ) : point.DeclsSpec slots n d [] [] :=
  ⟨by simp, by simp [covering, declaredHits], by simp [covering], by simp [covering, naming], by simp⟩

lemma exists_mem_append {α : Type} {P : α → Prop} {xs ys : List α} :
    (∃ x ∈ xs ++ ys, P x) ↔ (∃ x ∈ xs, P x) ∨ ∃ x ∈ ys, P x := by
  simp only [mem_append, or_and_right, exists_or]

lemma covering_append (ps qs : List LlgCovPiece) (key : ℕ) :
    covering (ps ++ qs) key = covering ps key ++ covering qs key :=
  filter_append ..

lemma DeclsSpec.cons {ps qs : List LlgCovPiece} (hps : point.PieceSpec slots d n bin ps)
    (hlength : ps.length ≤ bin.items.length)
    (hqs : point.DeclsSpec slots (n + point.binSize slots bin) (d + 1) bins qs) :
    point.DeclsSpec slots n d (bin :: bins) (ps ++ qs) := by
  have hrole : ∀ key, ∀ p ∈ covering ps key, p.role = bin.kind := fun key p hp =>
    hps.role_eq p (mem_covering.1 hp).1
  refine ⟨?_, fun key => ?_, fun key => ?_, fun key e => ?_, ?_⟩
  · intro p hp
    exact (mem_append.1 hp).elim (hps.span_le p) (hqs.span_le p)
  · rw [covering_append, filter_append, map_append, hqs.hits, declaredHits]
    congr 1
    split_ifs with hkind
    · have hself : (covering ps key).filter (fun p => p.role = .bins) = covering ps key :=
        filter_eq_self.2 fun p hp => decide_eq_true ((hrole key p hp).trans hkind)
      have hdecl : (covering ps key).map (fun p => (p.entry.decl, p.entry.bin (key - p.span.lo))) =
          ((covering ps key).map fun p => p.entry.bin (key - p.span.lo)).map (d, ·) := by
        rw [map_map]
        refine map_congr_left fun p hp => ?_
        rw [hps.decl_eq p (mem_covering.1 hp).1]
        rfl
      rw [hself, hdecl, hps.hits hkind key, map_map]
      rfl
    · have hnil : (covering ps key).filter (fun p => p.role = .bins) = [] :=
        filter_eq_nil_iff.2 fun p hp => by simp [hrole key p hp, hkind]
      rw [hnil, map_nil]
  · rw [covering_append, exists_mem_append, exists_mem_cons_iff, hqs.removes]
    refine or_congr_left ⟨?_, ?_⟩
    · rintro ⟨p, hp, hne⟩
      have hkind := hrole key p hp
      obtain ⟨hp, hholds⟩ := mem_covering.1 hp
      have hremoved := hps.removed_of_mem hp (hkind ▸ hne)
      exact ⟨hremoved, (hps.removes hremoved key).1 ⟨p, hp, hholds⟩⟩
    · rintro ⟨hremoved, hkey⟩
      obtain ⟨p, hp, hholds⟩ := (hps.removes hremoved key).2 hkey
      refine ⟨p, mem_covering.2 ⟨hp, hholds⟩, ?_⟩
      rw [hps.role_eq p hp]
      rcases hremoved with hkind | hkind
      · simp [hkind]
      · simp [hkind]
  · rw [covering_append, naming, mem_append, ← hqs.illegal, exists_mem_append]
    refine or_congr_left ⟨?_, ?_⟩
    · rintro ⟨p, hp, hill, rfl⟩
      have hkind := (hrole key p hp).symm.trans hill
      obtain ⟨hp, hholds⟩ := mem_covering.1 hp
      rw [if_pos ⟨hkind, (hps.removes (.inr hkind) key).1 ⟨p, hp, hholds⟩⟩, hps.decl_eq p hp]
      exact mem_singleton_self d
    · intro he
      split_ifs at he with hill
      · obtain rfl := mem_singleton.1 he
        obtain ⟨p, hp, hholds⟩ := (hps.removes (.inr hill.1) key).2 hill.2
        exact ⟨p, mem_covering.2 ⟨hp, hholds⟩, (hps.role_eq p hp).trans hill.1, hps.decl_eq p hp⟩
      · exact absurd he not_mem_nil
  · simp only [length_append, map_cons, sum_cons]
    exact add_le_add hlength hqs.length_le

/-- The default declaration that the layout keeps is the one there is. -/
def DefaultSpec (st : LayoutDecls) (hits : List (ℕ × ℕ)) (illegal : List ℕ) : Prop :=
  match st.defaultDecl with
  | none => hits = [] ∧ illegal = []
  | some d =>
    if st.defaultIllegal then hits = [] ∧ illegal = [d]
    else ∃ n, st.defaultBin = some n ∧ hits = [(d, n)] ∧ illegal = []

/-- The declarations that name a value only when no other does. -/
def isDefault (bin : LlgCovBin) : Bool :=
  bin.kind = .default || bin.kind = .illegalDefault

/-- The indices of the `illegal_bins` declarations of the default. -/
def illegalDefaults : ℕ → List LlgCovBin → List ℕ
  | _, [] => []
  | d, bin :: bins =>
    (if bin.kind = .illegalDefault then [d] else []) ++ illegalDefaults (d + 1) bins

/-- What the loop over the declarations builds. -/
theorem declLoop_spec (hpoint : point.WellFormed) (hbins : ∀ bin ∈ bins, bin ∈ point.bins)
    (hst : st.nBins ≤ uint64Max) (h : point.declLoop slots st d bins = .ok st') :
    (∃ pieces, st'.pieces = st.pieces ++ pieces ∧ point.DeclsSpec slots st.nBins d bins pieces) ∧
      st'.nBins = point.binBase slots st.nBins bins.length bins ∧ st'.nBins ≤ uint64Max ∧
      st'.declBase = st.declBase ++
        (List.range bins.length).map fun i => point.binBase slots st.nBins i bins := by
  induction bins generalizing st d with
  | nil =>
    obtain rfl := ok.inj h
    exact ⟨⟨[], by simp, .nil _ _⟩, rfl, hst, by simp⟩
  | cons bin bins ih =>
    obtain ⟨st1, hstep, h⟩ := bind_eq_ok h
    obtain ⟨hadds, hle⟩ := declStep_adds hpoint (hbins bin mem_cons_self) hst hstep
    obtain ⟨⟨qs, hqs, hspec⟩, hn, htop, hbase⟩ :=
      ih (fun b hb => hbins b (mem_cons_of_mem bin hb)) hle h
    obtain ⟨ps, hps, hpiece, hlength⟩ := hadds.pieces
    rw [hadds.nBins_eq] at hspec hn hbase
    refine ⟨⟨ps ++ qs, ?_, .cons hpiece hlength hspec⟩, hn, htop, ?_⟩
    · rw [hqs, hps, append_assoc]
    · rw [hbase, hadds.declBase_eq, length_cons, range_succ_eq_map, append_assoc]
      simp [binBase, Function.comp_def]

/-- With at most one default declaration, the layout keeps it. -/
theorem declLoop_default (hpoint : point.WellFormed) (hbins : ∀ bin ∈ bins, bin ∈ point.bins)
    (hst : st.nBins ≤ uint64Max) (h : point.declLoop slots st d bins = .ok st') :
    ((bins.filter isDefault).length = 0 → st'.defaultDecl = st.defaultDecl ∧
      st'.defaultIllegal = st.defaultIllegal ∧ st'.defaultBin = st.defaultBin ∧
      point.defaultHits slots st.nBins d bins = [] ∧ illegalDefaults d bins = []) ∧
    ((bins.filter isDefault).length ≤ 1 → st.defaultDecl = none →
      DefaultSpec st' (point.defaultHits slots st.nBins d bins) (illegalDefaults d bins)) := by
  induction bins generalizing st d with
  | nil =>
    obtain rfl := ok.inj h
    refine ⟨fun _ => ⟨rfl, rfl, rfl, rfl, rfl⟩, fun _ hnone => ?_⟩
    rw [DefaultSpec, hnone]
    exact ⟨rfl, rfl⟩
  | cons bin bins ih =>
    obtain ⟨st1, hstep, h⟩ := bind_eq_ok h
    obtain ⟨hadds, hle⟩ := declStep_adds hpoint (hbins bin mem_cons_self) hst hstep
    obtain ⟨ih0, ih1⟩ := ih (fun b hb => hbins b (mem_cons_of_mem bin hb)) hle h
    rw [hadds.nBins_eq] at ih0 ih1
    cases hkind : bin.kind with
    | default =>
      have hdef : isDefault bin = true := by simp [isDefault, hkind]
      obtain ⟨hbin, hdecl, hill⟩ := hadds.isDefault hkind
      rw [filter_cons_of_pos hdef, length_cons]
      refine ⟨fun h0 => by omega, fun h1 _ => ?_⟩
      obtain ⟨hd, hi, hb, hhits, hillegal⟩ := ih0 (by omega)
      rw [DefaultSpec, hd, hdecl]
      simp only [hi, hill, hb, hbin]
      refine ⟨_, rfl, ?_, ?_⟩
      · simp [defaultHits, hkind, hhits]
      · simp [illegalDefaults, hkind, hillegal]
    | illegalDefault =>
      have hdef : isDefault bin = true := by simp [isDefault, hkind]
      obtain ⟨hdecl, hill⟩ := hadds.isIllegalDefault hkind
      rw [filter_cons_of_pos hdef, length_cons]
      refine ⟨fun h0 => by omega, fun h1 _ => ?_⟩
      obtain ⟨hd, hi, -, hhits, hillegal⟩ := ih0 (by omega)
      rw [DefaultSpec, hd, hdecl]
      simp only [hi, hill]
      refine ⟨?_, ?_⟩
      · simp [defaultHits, hkind, hhits]
      · simp [illegalDefaults, hkind, hillegal]
    | _ =>
      have hdef : isDefault bin = false := by simp [isDefault, hkind]
      obtain ⟨hbin, hdecl, hill⟩ := hadds.defaults (by simp [hkind]) (by simp [hkind])
      rw [filter_cons_of_neg (by simp [hdef])]
      refine ⟨fun h0 => ?_, fun h1 hnone => ?_⟩
      · simpa [defaultHits, illegalDefaults, hkind, hdecl, hill, hbin] using ih0 h0
      · simpa [defaultHits, illegalDefaults, hkind] using ih1 h1 (hdecl.trans hnone)

/-! ## Success -/

lemma llgCovAddBins_ok {total more : ℕ} (hmore : more ≠ 0) (h : total + more ≤ uint64Max) :
    llgCovAddBins total more = .ok (total + more) := by
  rw [llgCovAddBins, if_neg (by omega)]

/-- A declaration whose numbers fit is added. -/
lemma exists_declStep_eq_ok (hpoint : point.WellFormed) (hbin : bin ∈ point.bins)
    (d : ℕ) (hfits : point.Fits slots st.nBins bin) :
    ∃ st', point.declStep slots st d bin = .ok st' := by
  have hmask := llgCovMask_le hpoint.width_le
  obtain ⟨hsize, hcounts⟩ := hfits
  rw [binSize] at hsize
  cases hkind : bin.kind with
  | default =>
    simp only [hkind] at hsize
    simp only [declStep, hkind, llgCovAddBins_ok Nat.one_ne_zero hsize]
    exact ⟨_, rfl⟩
  | bins =>
    cases hshape : bin.shape with
    | scalar =>
      simp only [hkind, hshape] at hsize
      simp only [declStep, hkind, hshape, llgCovAddBins_ok Nat.one_ne_zero hsize]
      exact ⟨_, rfl⟩
    | perValue =>
      obtain ⟨hsep, hmem, hspans⟩ := mergedSpans_spec slots hpoint hbin
      simp only [hkind, hshape] at hsize
      have hcard : (values (merge uint64Max (point.binSpans slots bin))).length =
          (point.binValues slots bin).toFinset.card := by
        rw [hsep.values_eq_sort fun key => (hmem key).symm]
        simp
      have hvalues := countValues_eq "coverage bins"
        (fun s hs => (hspans s hs).imp_right fun hhi => hhi.trans hmask) 0 (Nat.zero_le _)
      rw [hcard, zero_add, if_pos (by omega)] at hvalues
      simp only [declStep, hkind, hshape, hvalues]
      by_cases hzero : (point.binValues slots bin).toFinset.card = 0
      · simp only [hzero]
        exact ⟨_, rfl⟩
      · simp only [bind, Except.bind, ne_eq, hzero, not_false_eq_true, if_true,
          llgCovAddBins_ok hzero hsize]
        exact ⟨_, rfl⟩
    | count count =>
      simp only [hkind, hshape] at hsize
      simp only [declStep, hkind, hshape]
      by_cases hcount : (llgCovBinCount slots count).1 = 0
      · simp only [hcount, if_true]
        exact ⟨_, rfl⟩
      · have hspans : ∀ s ∈ point.binSpans slots bin, s.lo ≤ s.hi ∧ s.hi ≤ uint64Max :=
          fun s hs => (mem_binSpans hpoint hbin hs).imp_right fun hhi => hhi.trans hmask
        have hvalues := countValues_eq "coverage bin values" hspans 0 (Nat.zero_le _)
        rw [zero_add, ← binValues_eq hpoint hbin,
          if_pos (hcounts count hkind hshape hcount)] at hvalues
        simp only [if_neg hcount, hvalues, bind, bind, llgCovAddBins_ok hcount hsize]
        exact ⟨_, rfl⟩
  | _ =>
    simp only [declStep, hkind]
    exact ⟨_, rfl⟩

lemma le_binBase (n : ℕ) (bins : List LlgCovBin) : n ≤ point.binBase slots n bins.length bins := by
  induction bins generalizing n with
  | nil => exact le_refl _
  | cons bin bins ih => exact (Nat.le_add_right _ _).trans (ih _)

/-- The loop succeeds when the numbers fit. -/
theorem exists_declLoop_eq_ok (hpoint : point.WellFormed)
    (hbins : ∀ bin ∈ bins, bin ∈ point.bins) (d : ℕ)
    (htotal : point.binBase slots st.nBins bins.length bins ≤ uint64Max)
    (hcounts : ∀ bin ∈ bins, ∀ count, bin.kind = .bins → bin.shape = .count count →
      (llgCovBinCount slots count).1 ≠ 0 → (point.binValues slots bin).length ≤ uint64Max) :
    ∃ st', point.declLoop slots st d bins = .ok st' := by
  induction bins generalizing st d with
  | nil => exact ⟨st, rfl⟩
  | cons bin bins ih =>
    have hfits : st.nBins + point.binSize slots bin ≤ uint64Max :=
      (le_binBase _ bins).trans htotal
    have hbin := hbins bin mem_cons_self
    obtain ⟨st1, hstep⟩ := exists_declStep_eq_ok hpoint hbin d
      ⟨hfits, hcounts bin mem_cons_self⟩
    obtain ⟨hadds, -⟩ := declStep_adds hpoint hbin ((Nat.le_add_right _ _).trans hfits) hstep
    rw [declLoop, hstep]
    refine ih (fun b hb => hbins b (mem_cons_of_mem bin hb)) (d + 1) ?_
      fun b hb => hcounts b (mem_cons_of_mem bin hb)
    rw [hadds.nBins_eq]
    exact htotal

end LlgCovPoint

end Lapligence.Coverage
