import Lapligence.Coverage.ValueBins

/-!
# Automatic bins

A coverpoint without `bins` declarations has automatic bins: one for each member of an enumeration, or
equal shares of the values.  `autoHits` is the bin of a value; `autoCover_spec` says that the spans
computed for the layout hold exactly the bins of the values that no removed segment holds.
-/

namespace Lapligence.Coverage

open List Nat

namespace LlgCovPoint

variable (point : LlgCovPoint)

/-- The automatic bins that a value belongs to: its share of the values, the last bin also taking the
remainder, or its place among the members of the enumeration. -/
def autoHits (nAuto key : ℕ) : List ℕ :=
  match point.kind with
  | .auto => [min (key / (2 ^ point.width / nAuto)) (nAuto - 1)]
  | .enum => Span.positions key point.keys 0
  | .explicit => []

variable {point}

/-! ## Equal shares -/

lemma llgCovAutoBins_bounds (hpos : 0 < point.width) (autoBinMax : BitVec 64) :
    0 < point.llgCovAutoBins autoBinMax ∧ point.llgCovAutoBins autoBinMax ≤ uint64Max ∧
      (point.width < 64 → point.llgCovAutoBins autoBinMax ≤ 2 ^ point.width) := by
  have hle := BitVec.toInt_lt (x := autoBinMax)
  have htwo := Nat.two_pow_pos point.width
  rw [llgCovAutoBins, uint64Max]
  split_ifs <;> omega

/-- The successor of a number that is one below a multiple of `n` has a quotient by `n` one larger. -/
lemma succ_div_of_mod {m n : ℕ} (hn : 0 < n) :
    (m + 1) / n = if m % n = n - 1 then m / n + 1 else m / n := by
  have hlt := mod_lt m hn
  have hdvd : n ∣ m + 1 ↔ m % n = n - 1 := by
    rw [← div_add_mod m n, add_assoc, Nat.dvd_add_right (dvd_mul_right n _), mul_add_mod, mod_mod]
    exact ⟨fun h => by have := le_of_dvd (succ_pos _) h; omega, fun h => dvd_of_eq (by omega)⟩
  rw [Nat.succ_div]
  simp only [hdvd]
  split_ifs <;> rfl

/-- The width of a share as the code computes it, unless it is a whole 64-bit range. -/
lemma autoSpan_eq (hle : point.width ≤ 64) {n : ℕ} (hn : 0 < n) (hspan : point.autoSpan n ≠ 0) :
    point.autoSpan n = 2 ^ point.width / n := by
  have hsucc := succ_div_of_mod (m := uint64Max) hn
  have hquot : uint64Max / n ≤ uint64Max := div_le_self _ _
  have hmax : uint64Max + 1 = 2 ^ 64 := rfl
  rw [autoSpan] at hspan ⊢
  split_ifs at hspan ⊢ with h64 hmod
  · rw [le_antisymm hle h64, ← hmax, hsucc, if_pos hmod]
    refine mod_eq_of_lt (lt_of_le_of_ne (succ_le_succ hquot) fun heq => hspan ?_)
    rw [← hmax]
    exact heq ▸ mod_self _
  · rw [le_antisymm hle h64, ← hmax, hsucc, if_neg hmod]
  · rfl

lemma llgCovAutoBin_eq_ok (hle : point.width ≤ 64) {n key b : ℕ} (hn : 0 < n)
    (h : point.llgCovAutoBin n key = .ok b) :
    b = min (key / (2 ^ point.width / n)) (n - 1) ∧ point.autoSpan n ≠ 0 := by
  rw [llgCovAutoBin] at h
  split_ifs at h with hspan
  obtain rfl := Except.ok.inj h
  refine ⟨?_, hspan⟩
  rw [autoSpan_eq hle hn hspan]
  split_ifs <;> omega

/-- Quotients by a positive number grow by steps of at most one, also when they are cut off. -/
lemma min_div_step {m : ℕ} (hm : 0 < m) (last i k : ℕ) :
    min ((i + k) / m) last ≤ min ((i + (k + 1)) / m) last ∧
      min ((i + (k + 1)) / m) last ≤ min ((i + k) / m) last + 1 := by
  have hsucc := succ_div_of_mod (m := i + k) hm
  rw [← add_assoc, hsucc]
  split_ifs <;> omega

/-! ## Members of an enumeration -/

/-- The place of a member among ascending keys. -/
lemma positions_eq_of_sorted {keys : List ℕ} (h : keys.Pairwise (· < ·)) (key i : ℕ) :
    Span.positions key keys i =
      if keys[(keys.takeWhile fun k => k < key).length]? = some key then
        [i + (keys.takeWhile fun k => k < key).length] else [] := by
  induction keys generalizing i with
  | nil => simp [Span.positions]
  | cons k keys ih =>
    obtain ⟨hk, hkeys⟩ := pairwise_cons.1 h
    rcases lt_trichotomy k key with hlt | rfl | hgt
    · rw [Span.positions, if_neg (by omega), ih hkeys]
      simp only [takeWhile_cons, decide_eq_true hlt, if_true, length_cons,
        List.getElem?_cons_succ]
      split_ifs
      · congr 1
        omega
      · rfl
    · have hnot : k ∉ keys := fun hmem => (hk k hmem).ne rfl
      simp [Span.positions, Span.positions_eq_nil hnot]
    · have hnot : key ∉ keys := fun hmem => by
        have := hk key hmem
        omega
      simp [Span.positions, Span.positions_eq_nil hnot, not_lt.2 hgt.le, hgt.ne']

/-- The members between two keys are those at the places between. -/
lemma exists_key_iff {keys : List ℕ} (h : keys.Pairwise (· < ·)) (lo hi c : ℕ) :
    (∃ k, (lo ≤ k ∧ k ≤ hi) ∧ keys[c]? = some k) ↔
      (keys.takeWhile fun k => k < lo).length ≤ c ∧
        c < (keys.takeWhile fun k => k < lo).length +
          ((keys.dropWhile fun k => k < lo).takeWhile fun k => k ≤ hi).length := by
  have hbelow : keys.Pairwise fun a b => decide (b < lo) = true → decide (a < lo) = true :=
    h.imp fun hab hb => decide_eq_true (hab.trans (of_decide_eq_true hb))
  have hrest : (keys.dropWhile fun k => k < lo).Pairwise fun a b =>
      decide (b ≤ hi) = true → decide (a ≤ hi) = true :=
    (h.sublist (dropWhile_sublist _)).imp fun hab hb =>
      decide_eq_true (hab.le.trans (of_decide_eq_true hb))
  have hge : ∀ k ∈ keys.dropWhile fun k => k < lo, lo ≤ k := by
    intro k hk
    rw [dropWhile_eq_filter hbelow] at hk
    simpa using (mem_filter.1 hk).2
  have hsplit : keys = (keys.takeWhile fun k => k < lo) ++
      (((keys.dropWhile fun k => k < lo).takeWhile fun k => k ≤ hi) ++
        (keys.dropWhile fun k => k < lo).dropWhile fun k => k ≤ hi) := by
    rw [takeWhile_append_dropWhile, takeWhile_append_dropWhile]
  constructor
  · rintro ⟨k, ⟨hlo, hhi⟩, hk⟩
    rw [hsplit] at hk
    constructor
    · by_contra hc
      rw [List.getElem?_append_left (by omega)] at hk
      have : k < lo := by simpa using mem_takeWhile_imp (mem_of_getElem? hk)
      omega
    · by_contra hc
      rw [List.getElem?_append_right (by omega), List.getElem?_append_right (by omega)] at hk
      have hmem := mem_of_getElem? hk
      rw [dropWhile_eq_filter hrest] at hmem
      have : hi < k := by simpa using (mem_filter.1 hmem).2
      omega
  · rintro ⟨hlow, hhigh⟩
    have hlt : c - (keys.takeWhile fun k => k < lo).length <
        ((keys.dropWhile fun k => k < lo).takeWhile fun k => k ≤ hi).length := by omega
    obtain ⟨k, hk⟩ : ∃ k, ((keys.dropWhile fun k => k < lo).takeWhile fun k => k ≤ hi)[
        c - (keys.takeWhile fun k => k < lo).length]? = some k :=
      ⟨_, List.getElem?_eq_getElem hlt⟩
    have hmem := mem_of_getElem? hk
    refine ⟨k, ⟨hge k ((takeWhile_sublist _).subset hmem), ?_⟩, ?_⟩
    · simpa using mem_takeWhile_imp hmem
    · rw [hsplit, List.getElem?_append_right hlow, List.getElem?_append_left hlt, hk]

/-! ## The spans of the layout -/

lemma lowerBound_keys (hkeys : point.keys.Pairwise (· < ·)) (lo : ℕ) :
    lowerBound (fun mid => point.keys[mid]?.any fun key => key < lo) point.keys.length 0
      point.keys.length = (point.keys.takeWhile fun k => k < lo).length :=
  lowerBound_takeWhile (hkeys.imp fun hab hb => decide_eq_true (hab.trans (of_decide_eq_true hb)))

/-- What holds of the number of automatic bins. -/
def AutoCount (point : LlgCovPoint) (n : ℕ) : Prop :=
  match point.kind with
  | .auto => 0 < n ∧ n ≤ uint64Max ∧ (point.width < 64 → n ≤ 2 ^ point.width)
  | .enum => n = point.keys.length
  | .explicit => n = 0

/-- The spans hold the automatic bins of the given keys, and if there is such a key, the shares are not
empty. -/
structure AutoSpans (point : LlgCovPoint) (n : ℕ) (keys : ℕ → Prop) (spans : List Span) : Prop where
  holds : ∀ c, (∃ s ∈ spans, s.Holds c) ↔ ∃ k, keys k ∧ c ∈ point.autoHits n k
  le : ∀ s ∈ spans, s.lo ≤ s.hi ∧ s.hi ≤ uint64Max
  share : point.kind = .auto → (∃ k, keys k) → point.autoSpan n ≠ 0

namespace AutoSpans

variable {n : ℕ} {keys keys' : ℕ → Prop} {spans spans' : List Span}

lemma nil (h : ∀ k, ¬keys k) : point.AutoSpans n keys [] where
  holds c := by simp [h]
  le := by simp
  share _ hk := absurd hk (not_exists.2 h)

lemma congr (h : point.AutoSpans n keys spans) (hiff : ∀ k, keys k ↔ keys' k) :
    point.AutoSpans n keys' spans := by
  obtain rfl : keys = keys' := funext fun k => propext (hiff k)
  exact h

lemma append (h : point.AutoSpans n keys spans) (h' : point.AutoSpans n keys' spans') :
    point.AutoSpans n (fun k => keys k ∨ keys' k) (spans ++ spans') where
  holds c := by
    simp only [mem_append, or_and_right, exists_or, h.holds, h'.holds]
  le s hs := (mem_append.1 hs).elim (h.le s) (h'.le s)
  share hauto := by
    rintro ⟨k, hk | hk⟩
    · exact h.share hauto ⟨k, hk⟩
    · exact h'.share hauto ⟨k, hk⟩

end AutoSpans

/-- The spans of a range of keys hold the automatic bins of the keys. -/
lemma llgCovAutoSpans_spec (hpoint : point.WellFormed) (hkind : point.kind ≠ .explicit) {n lo hi : ℕ}
    (hn : point.AutoCount n) (hlohi : lo ≤ hi) {spans : List Span}
    (h : point.llgCovAutoSpans n lo hi = .ok spans) :
    point.AutoSpans n (fun k => lo ≤ k ∧ k ≤ hi) spans := by
  rw [llgCovAutoSpans] at h
  cases hkind' : point.kind with
  | explicit => exact absurd hkind' hkind
  | auto =>
    rw [AutoCount, hkind'] at hn
    obtain ⟨hpos, hmax, -⟩ := hn
    rw [if_pos hkind'] at h
    obtain ⟨first, hfirst, h⟩ := bind_eq_ok h
    obtain ⟨last, hlast, h⟩ := bind_eq_ok h
    obtain rfl := Except.ok.inj h
    obtain ⟨rfl, hspan⟩ := llgCovAutoBin_eq_ok hpoint.width_le hpos hfirst
    obtain ⟨rfl, -⟩ := llgCovAutoBin_eq_ok hpoint.width_le hpos hlast
    have hshare : 0 < 2 ^ point.width / n :=
      pos_of_ne_zero (autoSpan_eq hpoint.width_le hpos hspan ▸ hspan)
    have hstep : ∀ k, min (k / (2 ^ point.width / n)) (n - 1) ≤
          min ((k + 1) / (2 ^ point.width / n)) (n - 1) ∧
        min ((k + 1) / (2 ^ point.width / n)) (n - 1) ≤
          min (k / (2 ^ point.width / n)) (n - 1) + 1 := by
      intro k
      simpa using min_div_step hshare (n - 1) 0 k
    have himage := Span.exists_eq_iff_of_step hstep hlohi
    refine ⟨fun c => ?_, ?_, fun _ _ => hspan⟩
    · simp only [mem_singleton, exists_eq_left, autoHits, hkind']
      rw [Span.Holds, ← himage c]
      refine exists_congr fun k => and_congr_right fun _ => eq_comm
    · rintro s hs
      obtain rfl := mem_singleton.1 hs
      refine ⟨(monotone_nat_of_le_succ fun k => (hstep k).1) hlohi, ?_⟩
      dsimp only
      omega
  | enum =>
    rw [if_neg (by simp [hkind'])] at h
    obtain rfl := Except.ok.inj h
    have hkeys := hpoint.keys_sorted
    have hlength : point.keys.length ≤ uint64Max := hpoint.keys_length.trans (by decide)
    have hbins := exists_key_iff hkeys lo hi
    have hfits : (point.keys.takeWhile fun k => k < lo).length +
        ((point.keys.dropWhile fun k => k < lo).takeWhile fun k => k ≤ hi).length ≤ point.keys.length := by
      conv_rhs => rw [← takeWhile_append_dropWhile (p := fun k => decide (k < lo))
        (l := point.keys), length_append]
      exact Nat.add_le_add_left (takeWhile_sublist _).length_le _
    simp only [lowerBound_keys hkeys, drop_length_takeWhile]
    generalize (point.keys.takeWhile fun k => k < lo).length = first at hbins hfits ⊢
    generalize ((point.keys.dropWhile fun k => k < lo).takeWhile fun k => k ≤ hi).length = count at hbins hfits ⊢
    refine ⟨fun c => ?_, fun s hs => ?_, fun hauto => by simp [hkind'] at hauto⟩
    · have hhits : ∀ k, c ∈ point.autoHits n k ↔ point.keys[c]? = some k := by
        simp [autoHits, hkind', Span.mem_positions]
      simp only [hhits, hbins]
      split_ifs with hlt
      · simp only [mem_singleton, exists_eq_left, Span.Holds]
        omega
      · simp only [not_mem_nil, false_and, exists_false, false_iff]
        omega
    · split_ifs at hs with hlt
      · obtain rfl := mem_singleton.1 hs
        dsimp only
        omega
      · exact absurd hs not_mem_nil

lemma autoBefore_spec (hpoint : point.WellFormed) (hkind : point.kind ≠ .explicit) {n key : ℕ}
    (hn : point.AutoCount n) {seg : LlgCovSeg} {spans : List Span}
    (h : point.autoBefore n key seg = .ok spans) :
    point.AutoSpans n (fun k => key ≤ k ∧ k < seg.span.lo) spans := by
  rw [autoBefore] at h
  split_ifs at h with hlt
  · exact (llgCovAutoSpans_spec hpoint hkind hn (le_sub_one_of_lt hlt) h).congr fun k => by omega
  · obtain rfl := Except.ok.inj h
    exact .nil fun k => by omega

/-- A key that no segment holds lies before the first one, or behind it and in no other. -/
lemma unheld_cons {seg : LlgCovSeg} {segments : List LlgCovSeg} {key top : ℕ}
    (hsep : Span.Separated LlgCovSeg.span (seg :: segments)) (hkey : key ≤ seg.span.lo)
    (htop : seg.span.hi ≤ top) (k : ℕ) :
    ((key ≤ k ∧ k < seg.span.lo) ∨
      (seg.span.hi + 1 ≤ k ∧ k ≤ top) ∧ ∀ t ∈ segments, ¬t.span.Holds k) ↔
    (key ≤ k ∧ k ≤ top) ∧ ∀ t ∈ seg :: segments, ¬t.span.Holds k := by
  have hlohi := hsep.nonempty seg mem_cons_self
  have hlater : ∀ t ∈ segments, seg.span.hi < t.span.lo := (pairwise_cons.1 hsep.sorted).1
  rw [forall_mem_cons]
  constructor
  · rintro (⟨hk, hlt⟩ | ⟨⟨hk, hkm⟩, hnots⟩)
    · refine ⟨⟨hk, by omega⟩, fun hholds => ?_, fun t ht hholds => ?_⟩
      · have := hholds.1
        omega
      · have := hholds.1
        have := hlater t ht
        omega
    · refine ⟨⟨by omega, hkm⟩, fun hholds => ?_, hnots⟩
      have := hholds.2
      omega
  · rintro ⟨⟨hk, hkm⟩, hnot, hnots⟩
    simp only [Span.Holds] at hnot
    rcases lt_or_ge k seg.span.lo with hlt | hge
    · exact .inl ⟨hk, hlt⟩
    · exact .inr ⟨⟨by omega, hkm⟩, hnots⟩

/-- The spans of the layout hold the automatic bins of the keys that no segment holds. -/
theorem autoCover_spec (hpoint : point.WellFormed) (hkind : point.kind ≠ .explicit) {n : ℕ}
    (hn : point.AutoCount n) {segments : List LlgCovSeg}
    (hsep : Span.Separated LlgCovSeg.span segments)
    (hremoved : ∀ seg ∈ segments, seg.removed = true)
    (hmask : ∀ seg ∈ segments, seg.span.hi ≤ point.llgCovMask) {key : ℕ}
    (hkey : key ≤ point.llgCovMask) (hbegin : ∀ seg ∈ segments, key ≤ seg.span.lo)
    {spans : List Span} (h : point.autoCover n key segments = .ok spans) :
    point.AutoSpans n (fun k => (key ≤ k ∧ k ≤ point.llgCovMask) ∧ ∀ seg ∈ segments, ¬seg.span.Holds k)
      spans := by
  induction segments generalizing key spans with
  | nil => exact (llgCovAutoSpans_spec hpoint hkind hn hkey h).congr fun k => by simp
  | cons seg segments ih =>
    have hrem := hremoved seg mem_cons_self
    have hunheld := unheld_cons hsep (hbegin seg mem_cons_self) (hmask seg mem_cons_self)
    rw [autoCover, hrem] at h
    simp only [Bool.not_true, Bool.false_eq_true, if_false] at h
    obtain ⟨before, hbefore, h⟩ := bind_eq_ok h
    have hfirst := autoBefore_spec hpoint hkind hn hbefore
    split_ifs at h with hend
    · -- no key lies behind the segment
      obtain rfl := Except.ok.inj h
      refine hfirst.congr fun k => ?_
      rw [← hunheld k, iff_self_or]
      omega
    · obtain ⟨after, hafter, h⟩ := bind_eq_ok h
      obtain rfl := Except.ok.inj h
      have hrest := ih hsep.tail (fun t ht => hremoved t (mem_cons_of_mem seg ht))
        (fun t ht => hmask t (mem_cons_of_mem seg ht)) (by omega) (pairwise_cons.1 hsep.sorted).1 hafter
      exact (hfirst.append hrest).congr hunheld

end LlgCovPoint

end Lapligence.Coverage
