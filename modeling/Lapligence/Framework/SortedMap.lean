import Mathlib.Data.List.TakeWhile
import Mathlib.Data.Set.Card

/-!
# Sorted lists as finite maps

A list of entries, sorted by key without repetition, stands for a finite map.  Stored keys are of any
type `K`; `key : K → κ` says which element of a linear order a stored key stands for, so that
several representations of one key are allowed.

The operations work at the place where a key belongs, so the lists are written `low ++ high` with the
entries of `low` below the key and those of `high` not below it.
-/

namespace Lapligence

open List

universe u v w

variable {K : Type u} {κ : Type v} {β : Type w} [LinearOrder κ]

/-- The list `xs` is sorted and holds the entries of the map `m`. -/
structure RepresentsMap (key : K → κ) (xs : List (K × β)) (m : κ → Option β) : Prop where
  sorted : xs.Pairwise fun a b => key a.1 < key b.1
  mem_iff : ∀ k v, m k = some v ↔ ∃ e ∈ xs, key e.1 = k ∧ e.2 = v

/-! ### A list at the end of its first part -/

section Places

variable {α : Type u} (low high : List α) (x : α)

lemma getElem?_length_append : (low ++ high)[low.length]? = high.head? := by
  rw [List.getElem?_append_right (Nat.le_refl _), Nat.sub_self, List.head?_eq_getElem?]

lemma insertIdx_length_append : (low ++ high).insertIdx low.length x = low ++ x :: high := by
  induction low with
  | nil => rfl
  | cons y low ih => simp [ih]

lemma modify_length_append (f : α → α) :
    (low ++ x :: high).modify low.length f = low ++ f x :: high := by
  induction low with
  | nil => rfl
  | cons y low ih => simp [ih]

lemma eraseIdx_length_append : (low ++ x :: high).eraseIdx low.length = low ++ high := by
  rw [eraseIdx_append_of_length_le (Nat.le_refl _), Nat.sub_self, eraseIdx_cons_zero]

end Places

namespace RepresentsMap

open Function

variable {key : K → κ} {xs ys low high : List (K × β)} {m m' : κ → Option β} {k : κ} {e : K × β}

lemma nil (key : K → κ) : RepresentsMap (β := β) key [] fun _ => none :=
  ⟨List.Pairwise.nil, by simp⟩

lemma get_mem (h : RepresentsMap key xs m) (he : e ∈ xs) : m (key e.1) = some e.2 :=
  (h.mem_iff _ _).2 ⟨e, he, rfl, rfl⟩

/-- The map is empty at a key that no entry has. -/
lemma get_eq_none (h : RepresentsMap key xs m) (hk : ∀ e ∈ xs, key e.1 ≠ k) : m k = none := by
  rw [Option.eq_none_iff_forall_ne_some]
  intro v hv
  obtain ⟨e, he, hek, -⟩ := (h.mem_iff k v).1 hv
  exact hk e he hek

/-- The keys of the list are the domain of the map. -/
lemma exists_mem_iff (h : RepresentsMap key xs m) : (∃ e ∈ xs, key e.1 = k) ↔ m k ≠ none := by
  constructor
  · rintro ⟨e, he, rfl⟩
    simp [h.get_mem he]
  · intro hne
    obtain ⟨v, hv⟩ := Option.ne_none_iff_exists'.1 hne
    obtain ⟨e, he, hek, -⟩ := (h.mem_iff k v).1 hv
    exact ⟨e, he, hek⟩

/-- The length of the list is the number of keys. -/
lemma length_eq (h : RepresentsMap key xs m) : xs.length = {k | m k ≠ none}.ncard := by
  have hnodup : (xs.map fun e => key e.1).Nodup :=
    pairwise_map.2 (h.sorted.imp fun hlt => hlt.ne)
  have hset : {k | m k ≠ none} = ((xs.map fun e => key e.1).toFinset : Set κ) := by
    ext k
    rw [Set.mem_ofPred_eq, ← h.exists_mem_iff]
    simp
  rw [hset, Set.ncard_coe_finset, toFinset_card_of_nodup hnodup, length_map]

/-! ### The place of a key -/

/-- The entries below `k`, which come first. -/
def below (key : K → κ) (xs : List (K × β)) (k : κ) : List (K × β) :=
  xs.takeWhile fun e => key e.1 < k

/-- The entries from `k` on. -/
def notBelow (key : K → κ) (xs : List (K × β)) (k : κ) : List (K × β) :=
  xs.dropWhile fun e => key e.1 < k

lemma below_append_notBelow (key : K → κ) (xs : List (K × β)) (k : κ) :
    below key xs k ++ notBelow key xs k = xs :=
  takeWhile_append_dropWhile

lemma lt_of_mem_below (he : e ∈ below key xs k) : key e.1 < k := by
  simpa using mem_takeWhile_imp he

section Sorted

variable (hsorted : xs.Pairwise fun a b => key a.1 < key b.1)
include hsorted

lemma le_of_mem_notBelow (he : e ∈ notBelow key xs k) : k ≤ key e.1 := by
  induction xs with
  | nil => exact absurd he not_mem_nil
  | cons x xs ih =>
    obtain ⟨hx, hsorted⟩ := pairwise_cons.1 hsorted
    rw [notBelow, dropWhile_cons] at he
    split_ifs at he with hlt
    · exact ih hsorted he
    · have hkx : k ≤ key x.1 := by simpa using hlt
      rcases mem_cons.1 he with rfl | he
      · exact hkx
      · exact hkx.trans (hx e he).le

/-- An entry is among those below `k` by its index. -/
lemma lt_length_below_iff {i : ℕ} (hi : xs[i]? = some e) : i < (below key xs k).length ↔ key e.1 < k := by
  rw [← below_append_notBelow key xs k] at hi
  constructor
  · intro hlt
    rw [List.getElem?_append_left hlt] at hi
    exact lt_of_mem_below (mem_of_getElem? hi)
  · intro hlt
    by_contra hge
    rw [List.getElem?_append_right (Nat.not_lt.1 hge)] at hi
    exact absurd hlt (le_of_mem_notBelow hsorted (mem_of_getElem? hi)).not_gt

/-- The entry of `k`, if there is one, is the first that is not below. -/
lemma notBelow_of_mem (he : e ∈ xs) (hk : key e.1 = k) : ∃ high, notBelow key xs k = e :: high ∧ ∀ d ∈ high, k < key d.1 := by
  have hmem : e ∈ notBelow key xs k := by
    rw [← below_append_notBelow key xs k] at he
    refine (mem_append.1 he).resolve_left fun hlow => ?_
    exact absurd hk (lt_of_mem_below hlow).ne
  have hsub : (notBelow key xs k).Pairwise fun a b => key a.1 < key b.1 :=
    hsorted.sublist (dropWhile_sublist _)
  cases hxs : notBelow key xs k with
  | nil => simp [hxs] at hmem
  | cons d high =>
    rw [hxs] at hmem hsub
    obtain ⟨hd, -⟩ := pairwise_cons.1 hsub
    have hle : k ≤ key d.1 := le_of_mem_notBelow hsorted (hxs ▸ mem_cons_self)
    rcases mem_cons.1 hmem with rfl | hmem
    · exact ⟨high, rfl, fun d hd' => hk ▸ hd d hd'⟩
    · exact absurd (hd e hmem) (hk ▸ hle.not_gt)

/-- Without an entry of `k` those not below are above. -/
lemma lt_of_mem_notBelow (hk : ¬∃ e ∈ xs, key e.1 = k) (he : e ∈ notBelow key xs k) : k < key e.1 := by
  refine lt_of_le_of_ne (le_of_mem_notBelow hsorted he) fun heq => hk ⟨e, ?_, heq.symm⟩
  exact (dropWhile_sublist _).subset he

end Sorted

/-! ### Updates at the place of a key -/

omit [LinearOrder κ] in
/-- An entry does not matter for the other keys. -/
lemma exists_mem_middle (hk : key e.1 ≠ k) {v : β} :
    (∃ d ∈ low ++ e :: high, key d.1 = k ∧ d.2 = v) ↔ ∃ d ∈ low ++ high, key d.1 = k ∧ d.2 = v := by
  refine exists_congr fun d => and_congr_left fun hd => ?_
  have hne : d ≠ e := by
    rintro rfl
    exact hk hd.1
  simp [hne]

/-- A new entry. -/
lemma insert (h : RepresentsMap key (low ++ high) m) (hlow : ∀ e ∈ low, key e.1 < k)
    (hhigh : ∀ e ∈ high, k < key e.1) (x : K) (hx : key x = k) (v : β) :
    RepresentsMap key (low ++ (x, v) :: high) (update m k (some v)) := by
  obtain ⟨hl, hh, hlh⟩ := pairwise_append.1 h.sorted
  refine ⟨pairwise_append.2 ⟨hl, pairwise_cons.2 ⟨fun b hb => ?_, hh⟩, ?_⟩, fun k' v' => ?_⟩
  · exact hx ▸ hhigh b hb
  · intro a ha b hb
    rcases mem_cons.1 hb with rfl | hb
    · exact hx ▸ hlow a ha
    · exact hlh a ha b hb
  · by_cases hk : k' = k
    · subst hk
      rw [update_self]
      constructor
      · intro hv
        exact ⟨(x, v), by simp, hx, Option.some.inj hv⟩
      · rintro ⟨e, he, hek, rfl⟩
        rcases mem_append.1 he with he | he
        · exact absurd hek (hlow e he).ne
        rcases mem_cons.1 he with rfl | he
        · rfl
        · exact absurd hek (hhigh e he).ne'
    · rw [update_of_ne hk, h.mem_iff, exists_mem_middle fun heq => hk (heq.symm.trans hx)]

/-- An entry less. -/
lemma erase (h : RepresentsMap key (low ++ e :: high) m) :
    RepresentsMap key (low ++ high) (update m (key e.1) none) := by
  obtain ⟨hl, hh, hlh⟩ := pairwise_append.1 h.sorted
  obtain ⟨he, hh⟩ := pairwise_cons.1 hh
  refine ⟨pairwise_append.2 ⟨hl, hh, fun a ha b hb => hlh a ha b (mem_cons_of_mem _ hb)⟩,
    fun k v => ?_⟩
  by_cases hk : k = key e.1
  · subst hk
    rw [update_self]
    refine ⟨fun hv => by simp at hv, ?_⟩
    rintro ⟨d, hd, hdk, -⟩
    rcases mem_append.1 hd with hd | hd
    · exact absurd hdk (hlh d hd e mem_cons_self).ne
    · exact absurd hdk (he d hd).ne'
  · rw [update_of_ne hk, h.mem_iff, exists_mem_middle (Ne.symm hk)]

lemma cons (h : RepresentsMap key xs m) (x : K) (hxs : ∀ e ∈ xs, key x < key e.1) (v : β) :
    RepresentsMap key ((x, v) :: xs) (update m (key x) (some v)) := by
  rw [← nil_append xs] at h
  exact h.insert (fun e he => absurd he not_mem_nil) hxs x rfl v

lemma tail (h : RepresentsMap key (e :: xs) m) :
    RepresentsMap key xs (update m (key e.1) none) := by
  rw [← nil_append (e :: xs)] at h
  exact h.erase

/-- A new value for an entry. -/
lemma replace (h : RepresentsMap key (low ++ e :: high) m) (v : β) :
    RepresentsMap key (low ++ (e.1, v) :: high) (update m (key e.1) (some v)) := by
  obtain ⟨-, hh, hlh⟩ := pairwise_append.1 h.sorted
  obtain ⟨he, hh⟩ := pairwise_cons.1 hh
  have := h.erase.insert (fun d hd => hlh d hd e mem_cons_self) he e.1 rfl v
  rwa [update_idem] at this

/-! ### The order -/

/-- The first entry above `k` has the least key above `k`. -/
lemma isLeast (h : RepresentsMap key (low ++ e :: high) m) (hlow : ∀ d ∈ low, key d.1 ≤ k)
    (he : k < key e.1) : IsLeast {k' | m k' ≠ none ∧ k < k'} (key e.1) := by
  obtain ⟨-, hh, -⟩ := pairwise_append.1 h.sorted
  refine ⟨⟨h.exists_mem_iff.1 ⟨e, by simp, rfl⟩, he⟩, ?_⟩
  rintro k' ⟨hk', hlt⟩
  obtain ⟨d, hd, rfl⟩ := h.exists_mem_iff.2 hk'
  rcases mem_append.1 hd with hd | hd
  · exact absurd hlt (hlow d hd).not_gt
  rcases mem_cons.1 hd with rfl | hd
  · exact le_rfl
  · exact ((pairwise_cons.1 hh).1 d hd).le

/-- The last entry below `k` has the greatest key below `k`. -/
lemma isGreatest (h : RepresentsMap key (low ++ e :: high) m) (he : key e.1 < k)
    (hhigh : ∀ d ∈ high, k ≤ key d.1) : IsGreatest {k' | m k' ≠ none ∧ k' < k} (key e.1) := by
  obtain ⟨-, -, hlh⟩ := pairwise_append.1 h.sorted
  refine ⟨⟨h.exists_mem_iff.1 ⟨e, by simp, rfl⟩, he⟩, ?_⟩
  rintro k' ⟨hk', hlt⟩
  obtain ⟨d, hd, rfl⟩ := h.exists_mem_iff.2 hk'
  rcases mem_append.1 hd with hd | hd
  · exact (hlh d hd e mem_cons_self).le
  rcases mem_cons.1 hd with rfl | hd
  · exact le_rfl
  · exact absurd hlt (hhigh d hd).not_gt

/-- The first entry has the least key. -/
lemma isLeast_head (h : RepresentsMap key (e :: xs) m) : IsLeast {k | m k ≠ none} (key e.1) := by
  refine ⟨h.exists_mem_iff.1 ⟨e, mem_cons_self, rfl⟩, fun k hk => ?_⟩
  obtain ⟨d, hd, rfl⟩ := h.exists_mem_iff.2 hk
  rcases mem_cons.1 hd with rfl | hd
  · exact le_rfl
  · exact ((pairwise_cons.1 h.sorted).1 d hd).le

/-- The last entry has the greatest key. -/
lemma isGreatest_last (h : RepresentsMap key (xs ++ [e]) m) :
    IsGreatest {k | m k ≠ none} (key e.1) := by
  refine ⟨h.exists_mem_iff.1 ⟨e, by simp, rfl⟩, fun k hk => ?_⟩
  obtain ⟨d, hd, rfl⟩ := h.exists_mem_iff.2 hk
  rcases mem_append.1 hd with hd | hd
  · exact ((pairwise_append.1 h.sorted).2.2 d hd e mem_cons_self).le
  · rw [mem_singleton.1 hd]

end RepresentsMap

/-! ### Merging -/

/-- One pass over two sorted lists, with at most `fuel` entries of the result.  A key of both lists
gets the value `f (some (a, b))`, a key of one list `f none`. -/
def mergeEntries (cmp : K → K → Ordering) (f : Option (β × β) → β) :
    ℕ → List (K × β) → List (K × β) → List (K × β)
  | 0, _, _ => []
  | _ + 1, [], [] => []
  | fuel + 1, a :: xs, [] => (a.1, f none) :: mergeEntries cmp f fuel xs []
  | fuel + 1, [], b :: ys => (b.1, f none) :: mergeEntries cmp f fuel [] ys
  | fuel + 1, a :: xs, b :: ys =>
    match cmp a.1 b.1 with
    | .lt => (a.1, f none) :: mergeEntries cmp f fuel xs (b :: ys)
    | .eq => (a.1, f (some (a.2, b.2))) :: mergeEntries cmp f fuel xs ys
    | .gt => (b.1, f none) :: mergeEntries cmp f fuel (a :: xs) ys

/-- The merge of two maps. -/
def mergeMap (f : Option (β × β) → β) (m m' : κ → Option β) (k : κ) : Option β :=
  match m k, m' k with
  | none, none => none
  | some a, some b => some (f (some (a, b)))
  | some _, none => some (f none)
  | none, some _ => some (f none)

omit [LinearOrder κ] in
lemma mergeMap_ne_none {m m' : κ → Option β} {f : Option (β × β) → β} {k : κ}
    (h : mergeMap f m m' k ≠ none) : m k ≠ none ∨ m' k ≠ none := by
  unfold mergeMap at h
  cases hm : m k <;> cases hm' : m' k <;> simp_all

section Merge

variable {key : K → κ} {xs ys zs : List (K × β)} {m m' : κ → Option β} {f : Option (β × β) → β}
  {cmp : K → K → Ordering}

/-- The rest of a merge is put behind its first entry `(x, v)`. -/
lemma RepresentsMap.merge_cons {n n' : κ → Option β} {x : K} {v : β}
    (hzs : RepresentsMap key zs (mergeMap f n n')) (hn : ∀ k, n k ≠ none → key x < k)
    (hn' : ∀ k, n' k ≠ none → key x < k) (hv : mergeMap f m m' (key x) = some v)
    (hne : ∀ k ≠ key x, n k = m k ∧ n' k = m' k) :
    RepresentsMap key ((x, v) :: zs) (mergeMap f m m') := by
  have heq : mergeMap f m m' = Function.update (mergeMap f n n') (key x) (some v) := by
    funext k
    by_cases hk : k = key x
    · rw [hk, Function.update_self, hv]
    · rw [Function.update_of_ne hk]
      simp only [mergeMap, hne k hk]
  rw [heq]
  refine hzs.cons x (fun e he => ?_) v
  exact (mergeMap_ne_none (hzs.exists_mem_iff.1 ⟨e, he, rfl⟩)).elim (hn _) (hn' _)

lemma RepresentsMap.get_nil (h : RepresentsMap key [] m) (k : κ) : m k = none :=
  h.get_eq_none fun _ he => absurd he not_mem_nil

/-- The keys of the map are at least that of the first entry, and those of the rest are above it. -/
lemma RepresentsMap.head_lt {a : K × β} (h : RepresentsMap key (a :: xs) m) {k : κ}
    (hk : Function.update m (key a.1) none k ≠ none) : key a.1 < k := by
  obtain ⟨e, he, rfl⟩ := h.tail.exists_mem_iff.2 hk
  exact (pairwise_cons.1 h.sorted).1 e he

lemma RepresentsMap.head_le {a : K × β} (h : RepresentsMap key (a :: xs) m) {k : κ}
    (hk : m k ≠ none) : key a.1 ≤ k := by
  by_cases hak : k = key a.1
  · exact hak.ge
  · exact (h.head_lt (by rwa [Function.update_of_ne hak])).le

/-- Merging the lists merges the maps. -/
theorem RepresentsMap.merge (hcmp : ∀ a b, cmp a b = compare (key a) (key b)) {fuel : ℕ}
    (hfuel : xs.length + ys.length ≤ fuel) (hxs : RepresentsMap key xs m)
    (hys : RepresentsMap key ys m') :
    RepresentsMap key (mergeEntries cmp f fuel xs ys) (mergeMap f m m') := by
  induction fuel generalizing xs ys m m' with
  | zero =>
    obtain ⟨hx, hy⟩ := Nat.add_eq_zero_iff.1 (Nat.le_zero.1 hfuel)
    rw [length_eq_zero_iff] at hx hy
    subst hx hy
    have hnone : mergeMap f m m' = fun _ => none :=
      funext fun k => by simp [mergeMap, hxs.get_nil k, hys.get_nil k]
    rw [hnone]
    exact .nil key
  | succ fuel ih =>
    match xs, ys, hfuel, hxs, hys with
    | [], [], _, hxs, hys =>
      have hnone : mergeMap f m m' = fun _ => none :=
        funext fun k => by simp [mergeMap, hxs.get_nil k, hys.get_nil k]
      rw [hnone]
      exact .nil key
    | a :: xs, [], hfuel, hxs, hys =>
      have ha : m (key a.1) = some a.2 := hxs.get_mem mem_cons_self
      refine (ih (by simpa using hfuel) hxs.tail hys).merge_cons (fun k hk => hxs.head_lt hk)
        (fun k hk => absurd (hys.get_nil k) hk) ?_ fun k hk => ⟨?_, rfl⟩
      · simp [mergeMap, ha, hys.get_nil]
      · exact Function.update_of_ne hk _ _
    | [], b :: ys, hfuel, hxs, hys =>
      have hb : m' (key b.1) = some b.2 := hys.get_mem mem_cons_self
      refine (ih (by simpa using hfuel) hxs hys.tail).merge_cons
        (fun k hk => absurd (hxs.get_nil k) hk) (fun k hk => hys.head_lt hk)
        ?_ fun k hk => ⟨rfl, ?_⟩
      · simp [mergeMap, hb, hxs.get_nil]
      · exact Function.update_of_ne hk _ _
    | a :: xs, b :: ys, hfuel, hxs, hys =>
      have ha : m (key a.1) = some a.2 := hxs.get_mem mem_cons_self
      have hb : m' (key b.1) = some b.2 := hys.get_mem mem_cons_self
      simp only [length_cons] at hfuel
      rw [mergeEntries, hcmp]
      rcases lt_trichotomy (key a.1) (key b.1) with hlt | heq | hgt
      · rw [compare_lt_iff_lt.2 hlt]
        have hnone : m' (key a.1) = none := by
          by_contra hne
          exact absurd hlt (hys.head_le hne).not_gt
        refine (ih (by simp only [length_cons]; omega) hxs.tail hys).merge_cons
          (fun k hk => hxs.head_lt hk) (fun k hk => hlt.trans_le (hys.head_le hk))
          ?_ fun k hk => ⟨?_, rfl⟩
        · simp [mergeMap, ha, hnone]
        · exact Function.update_of_ne hk _ _
      · rw [compare_eq_iff_eq.2 heq]
        rw [← heq] at hb
        have hys' := hys.tail
        rw [← heq] at hys'
        refine (ih (by omega) hxs.tail hys').merge_cons (fun k hk => hxs.head_lt hk)
          (fun k hk => heq ▸ hys.head_lt (heq ▸ hk)) ?_ fun k hk => ⟨?_, ?_⟩
        · simp [mergeMap, ha, hb]
        · exact Function.update_of_ne hk _ _
        · exact Function.update_of_ne hk _ _
      · rw [compare_gt_iff_gt.2 hgt]
        have hnone : m (key b.1) = none := by
          by_contra hne
          exact absurd hgt (hxs.head_le hne).not_gt
        refine (ih (by simp only [length_cons]; omega) hxs hys.tail).merge_cons
          (fun k hk => hgt.trans_le (hxs.head_le hk)) (fun k hk => hys.head_lt hk)
          ?_ fun k hk => ⟨rfl, ?_⟩
        · simp [mergeMap, hb, hnone]
        · exact Function.update_of_ne hk _ _

omit [LinearOrder κ] in
/-- An entry of a merge has a key of one of the lists. -/
lemma mem_mergeEntries {fuel : ℕ} {e : K × β} (he : e ∈ mergeEntries cmp f fuel xs ys) :
    (∃ o, f o = e.2) ∧ ∃ d, (d ∈ xs ∨ d ∈ ys) ∧ d.1 = e.1 := by
  induction fuel generalizing xs ys with
  | zero => exact absurd he not_mem_nil
  | succ fuel ih =>
    -- an entry is the first one or comes from the rest of the lists
    have hcons : ∀ {x : K × β} {o xs' ys'}, e ∈ (x.1, f o) :: mergeEntries cmp f fuel xs' ys' →
        (x ∈ xs ∨ x ∈ ys) → xs' ⊆ xs → ys' ⊆ ys →
        (∃ o, f o = e.2) ∧ ∃ d, (d ∈ xs ∨ d ∈ ys) ∧ d.1 = e.1 := by
      intro x o xs' ys' he hx hxs hys
      rcases mem_cons.1 he with rfl | he
      · exact ⟨⟨o, rfl⟩, x, hx, rfl⟩
      · obtain ⟨ho, d, hd, hde⟩ := ih he
        exact ⟨ho, d, hd.imp (@hxs d) (@hys d), hde⟩
    match xs, ys, he, @hcons with
    | [], [], he, _ => exact absurd he not_mem_nil
    | a :: xs, [], he, hcons => exact hcons he (by simp) (subset_cons_self ..) (List.Subset.refl _)
    | [], b :: ys, he, hcons => exact hcons he (by simp) (List.Subset.refl _) (subset_cons_self ..)
    | a :: xs, b :: ys, he, hcons =>
      rw [mergeEntries] at he
      split at he
      · exact hcons he (by simp) (subset_cons_self ..) (List.Subset.refl _)
      · exact hcons he (.inl mem_cons_self) (subset_cons_self ..) (subset_cons_self ..)
      · exact hcons he (by simp) (List.Subset.refl _) (subset_cons_self ..)

end Merge

end Lapligence
