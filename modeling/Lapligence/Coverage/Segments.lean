import Lapligence.Coverage.Layout

/-!
# Segments and the pieces that cover a key

The segments are separated, and the one that holds a key is made of exactly the pieces that hold the
key, in their order (`segmentLoop_spec`).  The binary search of `llg_cov_find` therefore finds, for
every key, what the pieces say about it.
-/

namespace Lapligence.Coverage

open List

variable {p : LlgCovPiece} {key : ℕ} {bounds : List ℕ}

/-! ## Bounds -/

lemma uniqueFrom_spec {last : ℕ} (h : (last :: bounds).Pairwise (· ≤ ·)) :
    (last :: uniqueFrom last bounds).Pairwise (· < ·) ∧
      ∀ b, b ∈ last :: uniqueFrom last bounds ↔ b ∈ last :: bounds := by
  induction bounds generalizing last with
  | nil => exact ⟨pairwise_singleton .., fun b => Iff.rfl⟩
  | cons c bounds ih =>
    obtain ⟨hlast, hsorted⟩ := pairwise_cons.1 h
    rw [uniqueFrom]
    split_ifs with hc
    · subst hc
      obtain ⟨hlt, hmem⟩ := ih hsorted
      exact ⟨hlt, fun b => by rw [hmem]; simp⟩
    · obtain ⟨hlt, hmem⟩ := ih hsorted
      refine ⟨pairwise_cons.2 ⟨fun b hb => ?_, hlt⟩, fun b => ?_⟩
      · have hcb : c ≤ b := by
          rcases mem_cons.1 hb with rfl | hb
          · exact le_refl _
          · exact ((pairwise_cons.1 hlt).1 b hb).le
        have := hlast c mem_cons_self
        omega
      · rw [mem_cons, hmem, mem_cons (b := last)]

/-- The bounds are increasing, and are the ends of the pieces. -/
lemma pieceBounds_spec (pieces : List LlgCovPiece) :
    (pieceBounds pieces).Pairwise (· < ·) ∧
      ∀ b, b ∈ pieceBounds pieces ↔ ∃ p ∈ pieces, b = p.span.lo ∨
        p.span.hi ≠ uint64Max ∧ b = p.span.hi + 1 := by
  have hmem : ∀ b, b ∈ (pieces.flatMap fun piece =>
      piece.span.lo :: if piece.span.hi ≠ uint64Max then [piece.span.hi + 1] else []) ↔
      ∃ p ∈ pieces, b = p.span.lo ∨ p.span.hi ≠ uint64Max ∧ b = p.span.hi + 1 := by
    intro b
    rw [mem_flatMap]
    refine exists_congr fun p => and_congr_right fun _ => ?_
    by_cases htop : p.span.hi = uint64Max
    · simp [htop]
    · simp [htop]
  rw [pieceBounds]
  generalize (pieces.flatMap fun piece =>
      piece.span.lo :: if piece.span.hi ≠ uint64Max then [piece.span.hi + 1] else []) = bounds
      at hmem ⊢
  have hperm := mergeSort_perm bounds fun a b => decide (a ≤ b)
  have hsorted : (bounds.mergeSort fun a b => decide (a ≤ b)).Pairwise (· ≤ ·) := by
    have htrans : ∀ a b c : ℕ, decide (a ≤ b) = true → decide (b ≤ c) = true →
        decide (a ≤ c) = true := by
      simp only [decide_eq_true_eq]
      omega
    have htotal : ∀ a b : ℕ, (decide (a ≤ b) || decide (b ≤ a)) = true := by
      simp only [Bool.or_eq_true, decide_eq_true_eq]
      omega
    exact (pairwise_mergeSort htrans htotal bounds).imp of_decide_eq_true
  cases hsort : bounds.mergeSort fun a b => decide (a ≤ b) with
  | nil =>
    rw [hsort] at hperm
    refine ⟨List.Pairwise.nil, fun b => ?_⟩
    rw [← hmem, ← hperm.mem_iff]
  | cons =>
    rw [hsort] at hperm hsorted
    obtain ⟨hlt, huniq⟩ := uniqueFrom_spec hsorted
    refine ⟨hlt, fun c => ?_⟩
    rw [huniq, hperm.mem_iff, hmem]

/-! ## The loop over the bounds -/

/-- What holds before each turn of the loop. -/
structure SegmentInput (bounds : List ℕ) (active rest : List LlgCovPiece) : Prop where
  bounds_sorted : bounds.Pairwise (· < ·)
  bounds_le : ∀ b ∈ bounds, b ≤ uint64Max
  rest_sorted : rest.Pairwise fun p q => p.span.lo ≤ q.span.lo
  rest_spec : ∀ p ∈ rest, p.span.lo ≤ p.span.hi ∧ p.span.lo ∈ bounds ∧
    (p.span.hi = uint64Max ∨ p.span.hi + 1 ∈ bounds)
  active_spec : ∀ p ∈ active, (∀ b ∈ bounds, p.span.lo < b) ∧
    (p.span.hi = uint64Max ∨ p.span.hi + 1 ∈ bounds ∨ ∀ b ∈ bounds, p.span.hi < b)

/-- The pieces that hold a key. -/
def covering (pieces : List LlgCovPiece) (key : ℕ) : List LlgCovPiece :=
  pieces.filter fun p => p.span.Holds key

lemma mem_covering {pieces : List LlgCovPiece} :
    p ∈ covering pieces key ↔ p ∈ pieces ∧ p.span.Holds key := by
  simp [covering]

section Turn

variable {lo : ℕ} {bounds : List ℕ} {active rest : List LlgCovPiece}

/-- The pieces that are active from bound `lo` on. -/
def activeAt (lo : ℕ) (active rest : List LlgCovPiece) : List LlgCovPiece :=
  (active.filter fun p => lo ≤ p.span.hi) ++ rest.takeWhile fun p => p.span.lo = lo

/-- The pieces that begin after bound `lo`. -/
def restAt (lo : ℕ) (rest : List LlgCovPiece) : List LlgCovPiece :=
  rest.dropWhile fun p => p.span.lo = lo

/-- A turn forgets only pieces that have ended. -/
lemma covering_next (hlo : lo ≤ key) :
    covering (activeAt lo active rest ++ restAt lo rest) key = covering (active ++ rest) key := by
  have hactive : (active.filter fun p => lo ≤ p.span.hi).filter (fun p => p.span.Holds key) =
      active.filter fun p => p.span.Holds key := by
    rw [filter_filter]
    refine filter_congr fun p _ => ?_
    rw [Bool.and_eq_left_iff_imp]
    exact fun hholds => decide_eq_true (hlo.trans (of_decide_eq_true hholds).2)
  rw [covering, covering, activeAt, restAt, append_assoc, takeWhile_append_dropWhile,
    filter_append, filter_append, hactive]

variable (h : SegmentInput (lo :: bounds) active rest)
include h

lemma SegmentInput.le_of_mem_rest (hp : p ∈ rest) : lo ≤ p.span.lo := by
  rcases mem_cons.1 (h.rest_spec p hp).2.1 with heq | hmem
  · exact heq.ge
  · exact ((pairwise_cons.1 h.bounds_sorted).1 _ hmem).le

/-- The pieces that begin at `lo` come first. -/
lemma SegmentInput.begin_first :
    rest.Pairwise fun p q =>
      decide (q.span.lo = lo) = true → decide (p.span.lo = lo) = true := by
  refine h.rest_sorted.imp_of_mem fun hp _ hpq hq => ?_
  have := h.le_of_mem_rest hp
  simp only [decide_eq_true_eq] at hq ⊢
  omega

lemma SegmentInput.lo_lt_of_mem_restAt (hp : p ∈ restAt lo rest) : lo < p.span.lo := by
  have hle := h.le_of_mem_rest ((dropWhile_sublist _).subset hp)
  rw [restAt, dropWhile_eq_filter h.begin_first] at hp
  have hne : ¬p.span.lo = lo := by simpa using (mem_filter.1 hp).2
  omega

lemma SegmentInput.mem_activeAt
    (hp : p ∈ activeAt lo active rest) : p.span.lo ≤ lo ∧ lo ≤ p.span.hi ∧
      (p.span.hi = uint64Max ∨ p.span.hi + 1 ∈ bounds) := by
  rcases mem_append.1 hp with hp | hp
  · obtain ⟨hp, hhi⟩ := mem_filter.1 hp
    rw [decide_eq_true_eq] at hhi
    obtain ⟨hlo, hend⟩ := h.active_spec p hp
    refine ⟨(hlo lo mem_cons_self).le, hhi, ?_⟩
    rcases hend with htop | hmem | hpast
    · exact .inl htop
    · refine .inr ((mem_cons.1 hmem).resolve_left ?_)
      omega
    · exact absurd (hpast lo mem_cons_self) (Nat.not_lt.2 hhi)
  · have hlo : p.span.lo = lo := by simpa using mem_takeWhile_imp hp
    obtain ⟨hle, -, hend⟩ := h.rest_spec p ((takeWhile_sublist _).subset hp)
    refine ⟨hlo.le, hlo ▸ hle, hend.imp_right fun hmem => (mem_cons.1 hmem).resolve_left ?_⟩
    omega

lemma SegmentInput.next : SegmentInput bounds (activeAt lo active rest) (restAt lo rest) := by
  obtain ⟨hlo, hsorted⟩ := pairwise_cons.1 h.bounds_sorted
  refine ⟨hsorted, fun b hb => h.bounds_le b (mem_cons_of_mem lo hb),
    h.rest_sorted.sublist (dropWhile_sublist _), fun p hp => ?_, fun p hp => ?_⟩
  · have hbegin := h.lo_lt_of_mem_restAt hp
    obtain ⟨hle, hmem, hend⟩ := h.rest_spec p ((dropWhile_sublist _).subset hp)
    refine ⟨hle, (mem_cons.1 hmem).resolve_left (by omega), hend.imp_right fun hmem => ?_⟩
    exact (mem_cons.1 hmem).resolve_left (by omega)
  · obtain ⟨hbegin, -, hend⟩ := h.mem_activeAt hp
    exact ⟨fun b hb => lt_of_le_of_lt hbegin (hlo b hb), hend.imp_right .inl⟩

/-- Up to the next bound the active pieces are those that hold the key. -/
lemma SegmentInput.covering_eq
    (hlo : lo ≤ key) (hkey : key ≤ uint64Max) (hnext : ∀ b ∈ bounds, key < b) :
    covering (active ++ rest) key = activeAt lo active rest := by
  rw [← covering_next hlo, covering, filter_append]
  have hactive : (activeAt lo active rest).filter (fun p => p.span.Holds key) =
      activeAt lo active rest := by
    refine filter_eq_self.2 fun p hp => decide_eq_true ?_
    obtain ⟨hbegin, -, hend⟩ := h.mem_activeAt hp
    refine ⟨hbegin.trans hlo, ?_⟩
    rcases hend with htop | hmem
    · exact htop ▸ hkey
    · have := hnext _ hmem
      omega
  have hrest : (restAt lo rest).filter (fun p => p.span.Holds key) = [] := by
    refine filter_eq_nil_iff.2 fun p hp hholds => ?_
    have hbegin := h.next.rest_spec p hp
    have := hnext _ hbegin.2.1
    have := (of_decide_eq_true hholds).1
    omega
  rw [hactive, hrest, append_nil]

end Turn

/-- The upper end of the segment that begins at the bound before `bounds`. -/
def segmentEnd : List ℕ → ℕ
  | [] => uint64Max
  | next :: _ => next - 1

lemma segmentLoop_cons (lo : ℕ) (bounds : List ℕ) (active rest : List LlgCovPiece) :
    segmentLoop (lo :: bounds) active rest =
      if activeAt lo active rest = [] then
        segmentLoop bounds (activeAt lo active rest) (restAt lo rest)
      else makeSegment lo (segmentEnd bounds) (activeAt lo active rest) ::
        segmentLoop bounds (activeAt lo active rest) (restAt lo rest) := by
  cases bounds with
  | nil => rfl
  | cons => rfl

lemma le_segmentEnd_iff (hsorted : bounds.Pairwise (· < ·)) {lo : ℕ}
    (hlo : ∀ b ∈ bounds, lo < b) (hkey : key ≤ uint64Max) :
    key ≤ segmentEnd bounds ↔ ∀ b ∈ bounds, key < b := by
  cases bounds with
  | nil => simpa [segmentEnd] using hkey
  | cons next =>
    have hnext := hlo next mem_cons_self
    rw [segmentEnd, forall_mem_cons]
    constructor
    · intro hle
      refine ⟨by omega, fun b hb => ?_⟩
      have := (pairwise_cons.1 hsorted).1 b hb
      omega
    · rintro ⟨hlt, -⟩
      omega

lemma segmentEnd_le (h : ∀ b ∈ bounds, b ≤ uint64Max) : segmentEnd bounds ≤ uint64Max := by
  cases bounds with
  | nil => exact le_refl _
  | cons next => exact (Nat.sub_le _ _).trans (h next mem_cons_self)

/-- What holds of the segments of a loop that begins at bound `lo` or later. -/
structure SegmentsOf (bounds : List ℕ) (pieces : List LlgCovPiece) (segments : List LlgCovSeg) :
    Prop where
  separated : Span.Separated LlgCovSeg.span segments
  begin_mem : ∀ seg ∈ segments, seg.span.lo ∈ bounds ∧ seg.span.hi ≤ uint64Max
  eq_makeSegment : ∀ key ≤ uint64Max, (∃ b ∈ bounds, b ≤ key) → ∀ seg ∈ segments,
    seg.span.Holds key → covering pieces key ≠ [] ∧
      (∀ p ∈ covering pieces key, p.span.lo ≤ seg.span.lo) ∧
      seg = makeSegment seg.span.lo seg.span.hi (covering pieces key)
  exists_mem : ∀ key ≤ uint64Max, (∃ b ∈ bounds, b ≤ key) → covering pieces key ≠ [] →
    ∃ seg ∈ segments, seg.span.Holds key

/-- The segments are separated, begin at bounds, and the one that holds a key is made of the pieces
that do. -/
theorem segmentLoop_spec {active rest : List LlgCovPiece} (h : SegmentInput bounds active rest) :
    SegmentsOf bounds (active ++ rest) (segmentLoop bounds active rest) := by
  induction bounds generalizing active rest with
  | nil =>
    refine ⟨.nil _, by simp [segmentLoop], ?_, ?_⟩
    · rintro key - ⟨b, hb, -⟩
      exact absurd hb not_mem_nil
    · rintro key - ⟨b, hb, -⟩
      exact absurd hb not_mem_nil
  | cons lo bounds ih =>
    have hrest := ih h.next
    obtain ⟨hlo, hsorted⟩ := pairwise_cons.1 h.bounds_sorted
    have hend : ∀ key ≤ uint64Max, key ≤ segmentEnd bounds ↔ ∀ b ∈ bounds, key < b :=
      fun key hkey => le_segmentEnd_iff hsorted hlo hkey
    have hlotop := h.bounds_le lo mem_cons_self
    have hendtop := segmentEnd_le h.next.bounds_le
    -- the segments of the later turns hold no key before the next bound
    have hlater : ∀ key, (∀ b ∈ bounds, key < b) →
        ∀ seg ∈ segmentLoop bounds (activeAt lo active rest) (restAt lo rest),
          ¬seg.span.Holds key := by
      intro key hkey seg hseg hholds
      have := hkey _ (hrest.begin_mem seg hseg).1
      have := hholds.1
      omega
    -- a key lies before the next bound, and then the active pieces hold it, or is not affected
    have hcases : ∀ key ≤ uint64Max, (∃ b ∈ lo :: bounds, b ≤ key) →
        (∀ b ∈ bounds, key < b) ∧ lo ≤ key ∧
            covering (active ++ rest) key = activeAt lo active rest ∨
          (∃ b ∈ bounds, b ≤ key) ∧ covering (active ++ rest) key =
            covering (activeAt lo active rest ++ restAt lo rest) key := by
      rintro key hkey ⟨b, hb, hbkey⟩
      have hlokey : lo ≤ key := by
        rcases mem_cons.1 hb with rfl | hb
        · exact hbkey
        · exact (hlo b hb).le.trans hbkey
      by_cases hnext : ∀ b ∈ bounds, key < b
      · exact .inl ⟨hnext, hlokey, h.covering_eq hlokey hkey hnext⟩
      · push Not at hnext
        exact .inr ⟨hnext, (covering_next hlokey).symm⟩
    rw [segmentLoop_cons]
    split_ifs with hactive
    · refine ⟨hrest.separated, fun seg hseg => ?_, fun key hkey hb seg hseg hholds => ?_,
        fun key hkey hb hcover => ?_⟩
      · exact (hrest.begin_mem seg hseg).imp_left (mem_cons_of_mem lo)
      · rcases hcases key hkey hb with ⟨hnext, -⟩ | ⟨hb, hcovering⟩
        · exact absurd hholds (hlater key hnext seg hseg)
        · rw [hcovering]
          exact hrest.eq_makeSegment key hkey hb seg hseg hholds
      · rcases hcases key hkey hb with ⟨-, -, hcovering⟩ | ⟨hb, hcovering⟩
        · exact absurd (hcovering.trans hactive) hcover
        · exact hrest.exists_mem key hkey hb (hcovering ▸ hcover)
    · refine ⟨hrest.separated.cons ((hend lo hlotop).2 hlo) fun seg hseg => ?_, fun seg hseg => ?_,
        fun key hkey hb seg hseg hholds => ?_, fun key hkey hb hcover => ?_⟩
      · exact (hend _ hendtop).1 (le_refl _) _ (hrest.begin_mem seg hseg).1
      · rcases mem_cons.1 hseg with rfl | hseg
        · exact ⟨mem_cons_self, hendtop⟩
        · exact (hrest.begin_mem seg hseg).imp_left (mem_cons_of_mem lo)
      · rcases hcases key hkey hb with ⟨hnext, -, hcovering⟩ | ⟨hb, hcovering⟩
        · rcases mem_cons.1 hseg with rfl | hseg
          · rw [hcovering]
            exact ⟨hactive, fun p hp => (h.mem_activeAt hp).1, rfl⟩
          · exact absurd hholds (hlater key hnext seg hseg)
        · rcases mem_cons.1 hseg with rfl | hseg
          · obtain ⟨b, hb, hbkey⟩ := hb
            exact absurd ((hend key hkey).1 hholds.2 b hb) (Nat.not_lt.2 hbkey)
          · rw [hcovering]
            exact hrest.eq_makeSegment key hkey hb seg hseg hholds
      · rcases hcases key hkey hb with ⟨hnext, hlokey, -⟩ | ⟨hb, hcovering⟩
        · exact ⟨_, mem_cons_self, hlokey, (hend key hkey).2 hnext⟩
        · obtain ⟨seg, hseg, hholds⟩ := hrest.exists_mem key hkey hb (hcovering ▸ hcover)
          exact ⟨seg, mem_cons_of_mem _ hseg, hholds⟩

/-- The pieces of a layout are cut into segments that say for every key which pieces hold it. -/
theorem segments_spec {pieces : List LlgCovPiece}
    (hsorted : pieces.Pairwise fun p q => p.span.lo ≤ q.span.lo)
    (hpieces : ∀ p ∈ pieces, p.span.lo ≤ p.span.hi ∧ p.span.hi ≤ uint64Max) :
    Span.Separated LlgCovSeg.span (segmentLoop (pieceBounds pieces) [] pieces) ∧
      (∀ seg ∈ segmentLoop (pieceBounds pieces) [] pieces, seg.span.hi ≤ uint64Max) ∧
      ∀ key ≤ uint64Max,
        (∀ seg ∈ segmentLoop (pieceBounds pieces) [] pieces, seg.span.Holds key →
          covering pieces key ≠ [] ∧ (∀ p ∈ covering pieces key, p.span.lo ≤ seg.span.lo) ∧
            seg = makeSegment seg.span.lo seg.span.hi (covering pieces key)) ∧
        (covering pieces key ≠ [] →
          ∃ seg ∈ segmentLoop (pieceBounds pieces) [] pieces, seg.span.Holds key) := by
  obtain ⟨hbounds, hmem⟩ := pieceBounds_spec pieces
  have hinput : SegmentInput (pieceBounds pieces) [] pieces := by
    refine ⟨hbounds, fun b hb => ?_, hsorted, fun p hp => ⟨(hpieces p hp).1, ?_, ?_⟩, by simp⟩
    · obtain ⟨p, hp, rfl | ⟨hne, rfl⟩⟩ := (hmem b).1 hb
      · exact (hpieces p hp).1.trans (hpieces p hp).2
      · have := (hpieces p hp).2
        omega
    · exact (hmem _).2 ⟨p, hp, .inl rfl⟩
    · by_cases htop : p.span.hi = uint64Max
      · exact .inl htop
      · exact .inr ((hmem _).2 ⟨p, hp, .inr ⟨htop, rfl⟩⟩)
  have hspec := segmentLoop_spec hinput
  rw [nil_append] at hspec
  refine ⟨hspec.separated, fun seg hseg => (hspec.begin_mem seg hseg).2, fun key hkey => ⟨?_, ?_⟩⟩
  · intro seg hseg hholds
    exact hspec.eq_makeSegment key hkey ⟨_, (hspec.begin_mem seg hseg).1, hholds.1⟩ seg hseg hholds
  · intro hcover
    obtain ⟨p, hp⟩ := exists_mem_of_ne_nil _ hcover
    obtain ⟨hp, hholds⟩ := mem_covering.1 hp
    exact hspec.exists_mem key hkey ⟨_, (hinput.rest_spec p hp).2.1, hholds.1⟩ hcover

/-! ## The number of segments -/

lemma length_uniqueFrom_le (last : ℕ) (bounds : List ℕ) :
    (uniqueFrom last bounds).length ≤ bounds.length := by
  induction bounds generalizing last with
  | nil => exact le_refl _
  | cons b bounds ih =>
    rw [uniqueFrom, length_cons]
    split_ifs
    · exact (ih last).trans (Nat.le_succ _)
    · exact Nat.succ_le_succ (ih b)

lemma length_pieceBounds_le (pieces : List LlgCovPiece) :
    (pieceBounds pieces).length ≤ 2 * pieces.length := by
  have hflat : (pieces.flatMap fun piece =>
      piece.span.lo :: if piece.span.hi ≠ uint64Max then [piece.span.hi + 1] else []).length ≤
        2 * pieces.length := by
    induction pieces with
    | nil => exact le_refl _
    | cons =>
      rw [flatMap_cons, length_append, length_cons, length_cons]
      split_ifs
      · rw [length_singleton]
        omega
      · rw [length_nil]
        omega
  refine le_trans ?_ hflat
  rw [pieceBounds]
  generalize (pieces.flatMap fun piece =>
    piece.span.lo :: if piece.span.hi ≠ uint64Max then [piece.span.hi + 1] else []) = all
  rw [← (mergeSort_perm all fun a b => a ≤ b).length_eq]
  split
  · exact Nat.zero_le _
  · rename_i b bounds hsort
    rw [hsort]
    exact Nat.succ_le_succ (length_uniqueFrom_le b bounds)

lemma length_segmentLoop_le (bounds : List ℕ) (active rest : List LlgCovPiece) :
    (segmentLoop bounds active rest).length ≤ bounds.length := by
  induction bounds generalizing active rest with
  | nil => exact le_refl _
  | cons lo bounds ih =>
    rw [segmentLoop_cons]
    split_ifs
    · exact (ih _ _).trans (Nat.le_succ _)
    · exact Nat.succ_le_succ (ih _ _)

end Lapligence.Coverage
