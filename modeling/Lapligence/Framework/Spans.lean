import Lapligence.Framework.BinarySearch
import Mathlib.Algebra.Order.BigOperators.Group.List
import Mathlib.Data.Finset.Sort
import Mathlib.Data.List.DropRight
import Mathlib.Data.Set.Card
import Mathlib.Order.Interval.Finset.Nat

/-!
# Lists of intervals

Intervals of natural numbers with inclusive bounds, sorted lists of them, and the three things that
are done with such lists: merging overlapping (and adjacent) intervals, finding the interval that
holds a number by binary search, and ranking a number among all that the list holds.

`values` spells a list of intervals out, so that what is computed with bounds can be compared with
what is said number by number.
-/

namespace Lapligence

open List

universe u

/-- An interval with inclusive bounds. -/
structure Span where
  lo : ℕ
  hi : ℕ
deriving DecidableEq, Repr

namespace Span

/-- The number `k` lies in the interval. -/
def Holds (s : Span) (k : ℕ) : Prop :=
  s.lo ≤ k ∧ k ≤ s.hi

instance (s : Span) (k : ℕ) : Decidable (s.Holds k) :=
  inferInstanceAs (Decidable (_ ∧ _))

/-- How many numbers there are from `lo` to `hi`. -/
def size (s : Span) : ℕ :=
  s.hi + 1 - s.lo

/-- The numbers of the interval in order. -/
def toList (s : Span) : List ℕ :=
  List.range' s.lo s.size

lemma mem_toList {s : Span} {k : ℕ} : k ∈ s.toList ↔ s.Holds k := by
  simp only [toList, size, Holds, mem_range'_1]
  omega

@[simp] lemma length_toList (s : Span) : s.toList.length = s.size :=
  length_range'

end Span

/-- The numbers of a list of intervals, one interval after the other. -/
def Span.values (spans : List Span) : List ℕ :=
  spans.flatMap Span.toList

namespace Span

@[simp] lemma values_nil : values [] = [] := rfl

@[simp] lemma values_cons (s : Span) (spans : List Span) :
    values (s :: spans) = s.toList ++ values spans := rfl

variable {vs : List ℕ} {k : ℕ}

lemma mem_values {spans : List Span} : k ∈ values spans ↔ ∃ s ∈ spans, s.Holds k := by
  simp [values, mem_toList]

lemma length_values (spans : List Span) : (values spans).length = (spans.map size).sum := by
  induction spans with
  | nil => rfl
  | cons s spans ih => simp [ih]

/-! ## Separated intervals -/

section Separated

variable {σ : Type u} {span : σ → Span} {xs : List σ} {k : ℕ}

/-- The intervals of the list are not empty and each lies before the next. -/
structure Separated (span : σ → Span) (xs : List σ) : Prop where
  nonempty : ∀ x ∈ xs, (span x).lo ≤ (span x).hi
  sorted : xs.Pairwise fun a b => (span a).hi < (span b).lo

lemma Separated.nil (span : σ → Span) : Separated span [] :=
  ⟨by simp, List.Pairwise.nil⟩

lemma Separated.cons {x : σ} (h : Separated span xs) (hx : (span x).lo ≤ (span x).hi)
    (hxs : ∀ y ∈ xs, (span x).hi < (span y).lo) : Separated span (x :: xs) :=
  ⟨forall_mem_cons.2 ⟨hx, h.nonempty⟩, pairwise_cons.2 ⟨hxs, h.sorted⟩⟩

lemma Separated.tail {x : σ} (h : Separated span (x :: xs)) : Separated span xs :=
  ⟨fun y hy => h.nonempty y (mem_cons_of_mem x hy), (pairwise_cons.1 h.sorted).2⟩

/-- The element whose interval holds `k`: the first whose interval does not end below `k`, unless
that begins above. -/
def find (span : σ → Span) (xs : List σ) (k : ℕ) : Option σ :=
  let i := lowerBound (fun mid => xs[mid]?.any fun x => (span x).hi < k) xs.length 0 xs.length
  xs[i]?.filter fun x => (span x).lo ≤ k

lemma Separated.find_eq_some_iff (h : Separated span xs) {x : σ} :
    find span xs k = some x ↔ x ∈ xs ∧ (span x).Holds k := by
  have hsearch : find span xs k =
      ((xs.dropWhile fun x => (span x).hi < k).head?).filter fun x => (span x).lo ≤ k := by
    have hmono : xs.Pairwise fun a b =>
        decide ((span b).hi < k) = true → decide ((span a).hi < k) = true := by
      refine h.sorted.imp_of_mem fun ha hb hab hlt => ?_
      have := h.nonempty _ hb
      simp only [decide_eq_true_eq] at hlt ⊢
      omega
    rw [find, lowerBound_takeWhile hmono, getElem?_length_takeWhile]
  rw [hsearch]
  clear hsearch
  induction xs with
  | nil => simp
  | cons y xs ih =>
    have hy := h.nonempty y mem_cons_self
    have hlater : ∀ z ∈ xs, (span y).hi < (span z).lo := (pairwise_cons.1 h.sorted).1
    rw [dropWhile_cons, mem_cons]
    by_cases hend : (span y).hi < k
    · rw [if_pos (by simpa using hend)]
      refine (ih h.tail).trans (and_congr_left fun hx => (or_iff_right ?_).symm)
      rintro rfl
      exact absurd hx.2 (Nat.not_le.2 hend)
    · rw [if_neg (by simpa using hend), List.head?_cons, Option.filter_some]
      have hxs : x ∈ xs → ¬(span x).Holds k := fun hx hk => by
        have := hlater x hx
        have := hk.1
        omega
      by_cases hbegin : (span y).lo ≤ k
      · rw [if_pos (by simpa using hbegin), Option.some.injEq]
        constructor
        · rintro rfl
          exact ⟨.inl rfl, hbegin, Nat.not_lt.1 hend⟩
        · rintro ⟨rfl | hx, hk⟩
          · rfl
          · exact absurd hk (hxs hx)
      · rw [if_neg (by simpa using hbegin)]
        constructor
        · intro hfalse
          simp at hfalse
        · rintro ⟨rfl | hx, hk⟩
          · exact absurd hk.1 hbegin
          · exact absurd hk (hxs hx)

lemma Separated.find_eq_none_iff (h : Separated span xs) :
    find span xs k = none ↔ ∀ x ∈ xs, ¬(span x).Holds k := by
  rw [Option.eq_none_iff_forall_ne_some]
  simp only [ne_eq, h.find_eq_some_iff, not_and]

/-- At most one interval holds a number. -/
lemma Separated.filter_length_le (h : Separated span xs) (k : ℕ) :
    (xs.filter fun x => (span x).Holds k).length ≤ 1 := by
  have hpair : (xs.filter fun x => (span x).Holds k).Pairwise fun _ _ => False := by
    refine (h.sorted.filter _).imp_of_mem fun ha hb hab => ?_
    have ha := of_decide_eq_true (mem_filter.1 ha).2
    have hb := of_decide_eq_true (mem_filter.1 hb).2
    exact absurd hab (Nat.not_lt.2 (hb.1.trans ha.2))
  match xs.filter fun x => (span x).Holds k, hpair with
  | [], _ => exact Nat.zero_le _
  | [_], _ => exact le_refl _
  | _ :: y :: _, hpair => exact ((pairwise_cons.1 hpair).1 y mem_cons_self).elim

/-- Separated intervals are spelled out in increasing order. -/
lemma Separated.values_sorted {spans : List Span} (h : Separated id spans) :
    (values spans).Pairwise (· < ·) := by
  induction spans with
  | nil => exact List.Pairwise.nil
  | cons s spans ih =>
    rw [values_cons, pairwise_append]
    refine ⟨pairwise_lt_range', ih h.tail, fun a ha b hb => ?_⟩
    obtain ⟨t, ht, hb⟩ := mem_values.1 hb
    have hlt : s.hi < t.lo := (pairwise_cons.1 h.sorted).1 t ht
    exact lt_of_le_of_lt (mem_toList.1 ha).2 (lt_of_lt_of_le hlt hb.1)

/-- The sizes of separated intervals add up to the number of their numbers. -/
lemma Separated.ncard_eq {spans : List Span} (h : Separated id spans) :
    {k | ∃ s ∈ spans, s.Holds k}.ncard = (spans.map size).sum := by
  have hset : {k | ∃ s ∈ spans, s.Holds k} = ((values spans).toFinset : Set ℕ) := by
    ext k
    simp [mem_values]
  rw [hset, Set.ncard_coe_finset, toFinset_card_of_nodup, length_values]
  exact h.values_sorted.imp ne_of_lt

end Separated

/-! ## Merging -/

/-- The loop that joins sorted intervals to the current one while they overlap it or follow it
directly.  `top` is the largest number there is, whose successor must not be formed. -/
def mergeFrom (top : ℕ) : Span → List Span → List Span
  | current, [] => [current]
  | current, s :: spans =>
    if current.hi = top ∨ s.lo ≤ current.hi + 1 then
      mergeFrom top ⟨current.lo, max current.hi s.hi⟩ spans
    else current :: mergeFrom top s spans

/-- Intervals in the order of their lower and then their upper bounds. -/
def order (s t : Span) : Bool :=
  s.lo < t.lo || s.lo = t.lo && s.hi ≤ t.hi

/-- Sorting and then joining overlapping or adjacent intervals. -/
def merge (top : ℕ) (spans : List Span) : List Span :=
  match spans.mergeSort order with
  | [] => []
  | s :: spans => mergeFrom top s spans

/-- The loop that joins sorted intervals to the current one while `joins` says so. -/
def joinBy (joins : Span → Span → Bool) : Span → List Span → List Span
  | current, [] => [current]
  | current, s :: spans =>
    if joins current s then joinBy joins ⟨current.lo, max current.hi s.hi⟩ spans
    else current :: joinBy joins s spans

section Merge

variable {top : ℕ} {joins : Span → Span → Bool} {current : Span} {spans : List Span}

/-- The result begins where the current interval does. -/
lemma lo_le_of_mem_joinBy (hsorted : (current :: spans).Pairwise fun s t => s.lo ≤ t.lo)
    {s : Span} (hs : s ∈ joinBy joins current spans) : current.lo ≤ s.lo := by
  induction spans generalizing current with
  | nil => rw [mem_singleton.1 hs]
  | cons t spans ih =>
    obtain ⟨hcurrent, hsorted⟩ := pairwise_cons.1 hsorted
    obtain ⟨ht, hspans⟩ := pairwise_cons.1 hsorted
    rw [joinBy] at hs
    split_ifs at hs
    · have hjoined : (⟨current.lo, max current.hi t.hi⟩ :: spans).Pairwise
          fun s t : Span => s.lo ≤ t.lo :=
        pairwise_cons.2 ⟨fun u hu => hcurrent u (mem_cons_of_mem t hu), hspans⟩
      have := ih hjoined hs
      exact this
    · rcases mem_cons.1 hs with rfl | hs
      · exact le_refl _
      · exact le_trans (hcurrent t mem_cons_self) (ih hsorted hs)

/-- Joining sorted intervals separates them and keeps what they hold, when only intervals that
leave no gap are joined and only intervals that do not overlap are not. -/
lemma joinBy_spec
    (hjoins : ∀ c s : Span, c.hi ≤ top → s.lo ≤ s.hi → s.hi ≤ top → joins c s = true →
      s.lo ≤ c.hi + 1) (hsplits : ∀ c s : Span, joins c s = false → c.hi < s.lo)
    (hsorted : (current :: spans).Pairwise fun s t => s.lo ≤ t.lo)
    (hspans : ∀ s ∈ current :: spans, s.lo ≤ s.hi ∧ s.hi ≤ top) :
    Separated id (joinBy joins current spans) ∧
      ∀ k, (∃ s ∈ joinBy joins current spans, s.Holds k) ↔
        ∃ s ∈ current :: spans, s.Holds k := by
  induction spans generalizing current with
  | nil =>
    refine ⟨(Separated.nil id).cons (hspans current mem_cons_self).1 (by simp), fun k => ?_⟩
    rfl
  | cons t spans ih =>
    obtain ⟨hcurrent, hsorted'⟩ := pairwise_cons.1 hsorted
    obtain ⟨hle, htop⟩ := hspans current mem_cons_self
    obtain ⟨htle, httop⟩ := hspans t (by simp)
    have hct := hcurrent t mem_cons_self
    rw [joinBy]
    split_ifs with hjoin
    · have hnogap := hjoins current t htop htle httop hjoin
      have hjoined : (⟨current.lo, max current.hi t.hi⟩ :: spans).Pairwise
          fun s t : Span => s.lo ≤ t.lo :=
        pairwise_cons.2 ⟨fun u hu => hcurrent u (mem_cons_of_mem t hu),
          (pairwise_cons.1 hsorted').2⟩
      obtain ⟨hsep, hcover⟩ := ih hjoined
        (forall_mem_cons.2 ⟨by simp only; omega, fun u hu => hspans u (by simp [hu])⟩)
      refine ⟨hsep, fun k => (hcover k).trans ?_⟩
      have hk : Holds ⟨current.lo, max current.hi t.hi⟩ k ↔ current.Holds k ∨ t.Holds k := by
        simp only [Holds]
        omega
      simp only [mem_cons, exists_eq_or_imp, hk, or_assoc]
    · have hgap := hsplits current t (Bool.eq_false_iff.2 hjoin)
      obtain ⟨hsep, hcover⟩ := ih hsorted' fun u hu => hspans u (mem_cons_of_mem _ hu)
      refine ⟨hsep.cons hle fun u hu => ?_, fun k => ?_⟩
      · have := lo_le_of_mem_joinBy hsorted' hu
        simp only [id_eq]
        omega
      · simp only [mem_cons, exists_eq_or_imp, hcover]

lemma mergeFrom_eq_joinBy (top : ℕ) (current : Span) (spans : List Span) :
    mergeFrom top current spans =
      joinBy (fun c s => decide (c.hi = top ∨ s.lo ≤ c.hi + 1)) current spans := by
  induction spans generalizing current with
  | nil => rfl
  | cons s spans ih => simp only [mergeFrom, joinBy, ih, decide_eq_true_eq]

lemma mergeFrom_spec (hsorted : (current :: spans).Pairwise fun s t => s.lo ≤ t.lo)
    (hspans : ∀ s ∈ current :: spans, s.lo ≤ s.hi ∧ s.hi ≤ top) :
    Separated id (mergeFrom top current spans) ∧
      ∀ k, (∃ s ∈ mergeFrom top current spans, s.Holds k) ↔ ∃ s ∈ current :: spans, s.Holds k := by
  rw [mergeFrom_eq_joinBy]
  refine joinBy_spec (fun c s _ hs hst hjoin => ?_) (fun c s hjoin => ?_) hsorted hspans
  · rw [decide_eq_true_eq] at hjoin
    omega
  · rw [decide_eq_false_iff_not] at hjoin
    omega

lemma order_lo {s t : Span} (h : order s t = true) : s.lo ≤ t.lo := by
  simp only [order, Bool.or_eq_true, Bool.and_eq_true, decide_eq_true_eq] at h
  omega

/-- Merging separates the intervals and keeps what they hold. -/
theorem merge_spec (hspans : ∀ s ∈ spans, s.lo ≤ s.hi ∧ s.hi ≤ top) :
    Separated id (merge top spans) ∧
      ∀ k, (∃ s ∈ merge top spans, s.Holds k) ↔ ∃ s ∈ spans, s.Holds k := by
  have hperm := mergeSort_perm spans order
  have hsorted : (spans.mergeSort order).Pairwise fun s t => s.lo ≤ t.lo := by
    have htrans : ∀ a b c : Span, order a b = true → order b c = true → order a c = true := by
      intro a b c hab hbc
      simp only [order, Bool.or_eq_true, Bool.and_eq_true, decide_eq_true_eq] at hab hbc ⊢
      omega
    have htotal : ∀ a b : Span, (order a b || order b a) = true := by
      intro a b
      simp only [order, Bool.or_eq_true, Bool.and_eq_true, decide_eq_true_eq]
      omega
    exact (pairwise_mergeSort htrans htotal spans).imp order_lo
  have hcover : ∀ k, (∃ s ∈ spans.mergeSort order, s.Holds k) ↔ ∃ s ∈ spans, s.Holds k :=
    fun k => by simp [hperm.mem_iff]
  have hspans' : ∀ s ∈ spans.mergeSort order, s.lo ≤ s.hi ∧ s.hi ≤ top :=
    fun s hs => hspans s (hperm.mem_iff.1 hs)
  rw [merge]
  cases hsort : spans.mergeSort order with
  | nil =>
    rw [hsort] at hcover
    exact ⟨Separated.nil id, hcover⟩
  | cons =>
    rw [hsort] at hcover hsorted hspans'
    obtain ⟨hsep, hmerge⟩ := mergeFrom_spec hsorted hspans'
    exact ⟨hsep, fun k => (hmerge k).trans (hcover k)⟩

/-- Merging does not make more intervals. -/
lemma length_mergeFrom_le (top : ℕ) (current : Span) (spans : List Span) :
    (mergeFrom top current spans).length ≤ spans.length + 1 := by
  induction spans generalizing current with
  | nil => exact le_refl _
  | cons s spans ih =>
    rw [mergeFrom]
    split_ifs
    · exact (ih _).trans (by simp)
    · simpa using ih s

lemma length_merge_le (top : ℕ) (spans : List Span) : (merge top spans).length ≤ spans.length := by
  have hlength := (mergeSort_perm spans order).length_eq
  rw [merge]
  split
  · exact Nat.zero_le _
  · rename_i s rest hsort
    rw [← hlength, hsort]
    exact length_mergeFrom_le top s rest

end Merge

/-! ## Joining overlapping intervals -/

/-- An interval inserted into a list that is sorted by lower bounds, behind its equals. -/
def insertByLo (sorted : List Span) (s : Span) : List Span :=
  sorted.rdropWhile (fun t => s.lo < t.lo) ++ s :: sorted.rtakeWhile fun t => s.lo < t.lo

/-- Insertion sort by lower bounds, then joining the intervals that overlap.  Intervals that only
touch stay apart. -/
def joinOverlaps (spans : List Span) : List Span :=
  match spans.foldl insertByLo [] with
  | [] => []
  | s :: rest => joinBy (fun c s => decide (s.lo ≤ c.hi)) s rest

section Overlaps

variable {spans sorted : List Span}

lemma insertByLo_perm (sorted : List Span) (s : Span) :
    (insertByLo sorted s).Perm (s :: sorted) := by
  rw [insertByLo]
  refine perm_middle.trans (List.Perm.cons s ?_)
  rw [rdropWhile_append_rtakeWhile]

lemma insertByLo_sorted (h : sorted.Pairwise fun s t => s.lo ≤ t.lo) (s : Span) :
    (insertByLo sorted s).Pairwise fun s t => s.lo ≤ t.lo := by
  have hparts : sorted.rdropWhile (fun t => s.lo < t.lo) ++
      sorted.rtakeWhile (fun t => s.lo < t.lo) = sorted := rdropWhile_append_rtakeWhile ..
  rw [← hparts, pairwise_append] at h
  obtain ⟨hbefore, hafter, hcross⟩ := h
  have habove : ∀ t ∈ sorted.rtakeWhile fun t => s.lo < t.lo, s.lo ≤ t.lo := by
    intro t ht
    have hlt := mem_rtakeWhile_imp ht
    rw [decide_eq_true_eq] at hlt
    exact hlt.le
  have hbelow : ∀ t ∈ sorted.rdropWhile fun t => s.lo < t.lo, t.lo ≤ s.lo := by
    intro t ht
    -- the last of the intervals kept in place begins not above `s`, the others not above it
    have hne : sorted.rdropWhile (fun t => decide (s.lo < t.lo)) ≠ [] := ne_nil_of_mem ht
    have hlast := rdropWhile_last_not _ _ hne
    rw [decide_eq_true_eq, not_lt] at hlast
    rw [← dropLast_append_getLast hne] at ht hbefore
    rcases mem_append.1 ht with ht | ht
    · exact ((pairwise_append.1 hbefore).2.2 t ht _ (mem_singleton_self _)).trans hlast
    · rw [mem_singleton.1 ht]
      exact hlast
  rw [insertByLo, pairwise_append, pairwise_cons]
  refine ⟨hbefore, ⟨habove, hafter⟩, fun t ht u hu => ?_⟩
  rcases mem_cons.1 hu with rfl | hu
  · exact hbelow t ht
  · exact hcross t ht u hu

variable (spans) in
lemma foldl_insertByLo (h : sorted.Pairwise fun s t => s.lo ≤ t.lo) :
    (spans.foldl insertByLo sorted).Pairwise (fun s t => s.lo ≤ t.lo) ∧
      (spans.foldl insertByLo sorted).Perm (sorted ++ spans) := by
  induction spans generalizing sorted with
  | nil => simpa using h
  | cons s spans ih =>
    obtain ⟨hsorted, hperm⟩ := ih (insertByLo_sorted h s)
    refine ⟨hsorted, hperm.trans ?_⟩
    exact ((insertByLo_perm sorted s).append_right spans).trans perm_middle.symm

/-- Joining separates the intervals and keeps what they hold. -/
lemma joinOverlaps_spec (hspans : ∀ s ∈ spans, s.lo ≤ s.hi) :
    Separated id (joinOverlaps spans) ∧
      ∀ k, (∃ s ∈ joinOverlaps spans, s.Holds k) ↔ ∃ s ∈ spans, s.Holds k := by
  obtain ⟨hsorted, hperm⟩ := foldl_insertByLo spans List.Pairwise.nil
  rw [nil_append] at hperm
  have hcover : ∀ k, (∃ s ∈ spans.foldl insertByLo [], s.Holds k) ↔ ∃ s ∈ spans, s.Holds k :=
    fun k => by simp [hperm.mem_iff]
  have hspans' : ∀ s ∈ spans.foldl insertByLo [], s.lo ≤ s.hi :=
    fun s hs => hspans s (hperm.mem_iff.1 hs)
  rw [joinOverlaps]
  cases hsort : spans.foldl insertByLo [] with
  | nil =>
    rw [hsort] at hcover
    exact ⟨Separated.nil id, hcover⟩
  | cons s rest =>
    rw [hsort] at hcover hsorted hspans'
    have htop : ∀ t ∈ s :: rest, t.lo ≤ t.hi ∧ t.hi ≤ ((s :: rest).map hi).sum := fun t ht =>
      ⟨hspans' t ht, single_le_sum (by simp) _ (mem_map_of_mem ht)⟩
    have hsplits : ∀ c s : Span, decide (s.lo ≤ c.hi) = false → c.hi < s.lo :=
      fun c s h => Nat.lt_of_not_le (of_decide_eq_false h)
    obtain ⟨hsep, hjoin⟩ := joinBy_spec
      (fun c s _ _ _ h => (of_decide_eq_true h).trans (Nat.le_succ _)) hsplits hsorted htop
    exact ⟨hsep, fun k => (hjoin k).trans (hcover k)⟩

end Overlaps

/-! ## Places in the spelled-out list -/

/-- The places of `k` in a list of numbers whose first place is `i`. -/
def positions (k : ℕ) : List ℕ → ℕ → List ℕ
  | [], _ => []
  | v :: vs, i => if v = k then i :: positions k vs (i + 1) else positions k vs (i + 1)

lemma positions_append (k : ℕ) (vs ws : List ℕ) (i : ℕ) :
    positions k (vs ++ ws) i = positions k vs i ++ positions k ws (i + vs.length) := by
  induction vs generalizing i with
  | nil => simp [positions]
  | cons v vs ih =>
    simp only [cons_append, positions, ih, length_cons]
    rw [show i + 1 + vs.length = i + (vs.length + 1) by omega]
    split_ifs
    · rfl
    · rfl

lemma positions_eq_nil (h : k ∉ vs) (i : ℕ) : positions k vs i = [] := by
  induction vs generalizing i with
  | nil => rfl
  | cons v vs ih =>
    rw [mem_cons, not_or] at h
    rw [positions, if_neg (Ne.symm h.1), ih h.2]

lemma lt_of_mem_positions {i j : ℕ} (h : j ∈ positions k vs i) :
    j < i + vs.length := by
  induction vs generalizing i with
  | nil => exact absurd h not_mem_nil
  | cons v vs ih =>
    rw [length_cons]
    rw [positions] at h
    split_ifs at h
    · rcases mem_cons.1 h with rfl | h
      · omega
      · have := ih h
        omega
    · have := ih h
      omega

lemma mem_positions {i c : ℕ} :
    c ∈ positions k vs i ↔ i ≤ c ∧ vs[c - i]? = some k := by
  induction vs generalizing i with
  | nil => simp [positions]
  | cons v vs ih =>
    have hrest : c ∈ positions k vs (i + 1) ↔ i < c ∧ (v :: vs)[c - i]? = some k := by
      rw [ih]
      refine and_congr_right fun hlt => ?_
      rw [show c - i = c - (i + 1) + 1 by omega, List.getElem?_cons_succ]
    by_cases hc : c = i
    · subst hc
      rw [Nat.sub_self, positions]
      split_ifs with hv
      · simp [hv]
      · rw [hrest]
        simp [hv]
    · have hlt : i ≤ c ↔ i < c := by omega
      rw [positions, hlt, ← hrest]
      split_ifs
      · simp [hc]
      · rfl

lemma positions_range' (k lo n i : ℕ) :
    positions k (List.range' lo n) i = if lo ≤ k ∧ k < lo + n then [i + (k - lo)] else [] := by
  induction n generalizing lo i with
  | zero =>
    rw [if_neg (by omega)]
    rfl
  | succ n ih =>
    rw [List.range'_succ, positions, ih]
    by_cases hk : lo = k
    · subst hk
      simp
    · rw [if_neg hk]
      split_ifs with h1 h2 h2
      · congr 1
        omega
      · omega
      · omega
      · rfl

/-- The intervals of a list with the places of their first numbers. -/
def offsets : ℕ → List Span → List (Span × ℕ)
  | _, [] => []
  | i, s :: spans => (s, i) :: offsets (i + s.size) spans

/-- The places of a number are computed from the intervals that hold it. -/
lemma positions_values (k : ℕ) (spans : List Span) (i : ℕ) :
    positions k (values spans) i =
      ((offsets i spans).filter fun p => p.1.Holds k).map fun p => p.2 + (k - p.1.lo) := by
  induction spans generalizing i with
  | nil => rfl
  | cons s spans ih =>
    have hs : positions k s.toList i = if s.Holds k then [i + (k - s.lo)] else [] := by
      rw [toList, positions_range']
      refine if_congr ?_ rfl rfl
      simp only [size, Holds]
      omega
    rw [values_cons, positions_append, ih, hs, length_toList, offsets, filter_cons]
    split_ifs with h1 h2 h2
    · rfl
    · simp [h1] at h2
    · simp [h1] at h2
    · rfl

/-- Separated intervals are spelled out as the sorted list of what they hold. -/
lemma Separated.values_eq_sort {spans : List Span} (h : Separated id spans)
    (hvs : ∀ k, k ∈ vs ↔ ∃ s ∈ spans, s.Holds k) : values spans = vs.toFinset.sort := by
  have hset : (values spans).toFinset = vs.toFinset := by
    ext k
    simp [mem_values, hvs]
  have hnodup : (values spans).Nodup := h.values_sorted.imp ne_of_lt
  rw [← hset]
  exact ((toFinset_sort (· ≤ ·) hnodup).2 (h.values_sorted.imp le_of_lt)).symm

/-- Increasing lists with the same elements are equal. -/
lemma eq_of_sorted {ws : List ℕ} (hvs : vs.Pairwise (· < ·)) (hws : ws.Pairwise (· < ·))
    (h : ∀ k, k ∈ vs ↔ k ∈ ws) : vs = ws := by
  have hset : vs.toFinset = ws.toFinset := by
    ext k
    simp [h]
  have hv := (toFinset_sort (· ≤ ·) (hvs.imp ne_of_lt)).2 (hvs.imp le_of_lt)
  have hw := (toFinset_sort (· ≤ ·) (hws.imp ne_of_lt)).2 (hws.imp le_of_lt)
  rw [← hv, hset, hw]

/-- The values of a function that grows by steps of at most one fill an interval. -/
lemma exists_eq_iff_of_step {f : ℕ → ℕ} (hf : ∀ k, f k ≤ f (k + 1) ∧ f (k + 1) ≤ f k + 1)
    {a b : ℕ} (hab : a ≤ b) (c : ℕ) : (∃ k, (a ≤ k ∧ k ≤ b) ∧ f k = c) ↔ f a ≤ c ∧ c ≤ f b := by
  have hmono : Monotone f := monotone_nat_of_le_succ fun k => (hf k).1
  constructor
  · rintro ⟨k, ⟨hak, hkb⟩, rfl⟩
    exact ⟨hmono hak, hmono hkb⟩
  · rintro ⟨hac, hcb⟩
    obtain ⟨n, rfl⟩ := Nat.exists_eq_add_of_le hab
    induction n with
    | zero => exact ⟨a, ⟨le_refl _, le_refl _⟩, by simp only [add_zero] at hcb; omega⟩
    | succ n ih =>
      by_cases hc : c ≤ f (a + n)
      · obtain ⟨k, ⟨hak, hkn⟩, hk⟩ := ih (Nat.le_add_right a n) hc
        exact ⟨k, ⟨hak, by omega⟩, hk⟩
      · have hstep := (hf (a + n)).2
        rw [add_assoc] at hstep
        exact ⟨a + (n + 1), ⟨by omega, le_refl _⟩, by omega⟩

end Span

end Lapligence
