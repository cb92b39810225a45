import Lapligence.Scheduler.SwitchLevels

/-!
# The solve reaches the grounded solution

The queues of `switchLevels` are taken from supply down to small.  While level `L` is taken,
every level that has left its node is final: an offer made now raises an entry to at most
`L`, and in the second phase of the level, when only dominated values are left, a dominant
one to less than `L`.  `cut` is the point this has reached on the scale of `switchStratum`.

`SolveInv` is the invariant: each level is traced back to a driver through final levels, and
each level has been blocked, has been offered to all neighbours, or waits in a queue.
-/

namespace Lapligence.Scheduler

open Function List

variable {N : SwitchNetwork} {dominant : ℕ → Option Bool} {d : Bool} {C : Set ℕ}

/-- The levels as a map of positions. -/
def SwitchQueues.lvl (q : SwitchQueues) (p : ℕ × Entry) : ℤ := q.level p.1 p.2

variable {lvl lvl' : ℕ × Entry → ℤ} {p : ℕ × Entry} {n : ℕ} {e : Entry} {item : SwitchItem}
  {rest : List SwitchItem} {cut : ℤ}

/-! ## Raising levels -/

/-- Where a level that leaves its position stands on the scale of strata: a dominated value of
a wired node leaves in the second phase of its level. -/
def leaveRank (dominant : ℕ → Option Bool) (p : ℕ × Entry) (level : ℤ) : ℤ :=
  if dominant p.1 = some (!p.2.side) then 2 * level else 2 * level + 1

lemma leaveRank_le (dominant : ℕ → Option Bool) (p : ℕ × Entry) (level : ℤ) :
    leaveRank dominant p level ≤ 2 * level + 1 := by
  unfold leaveRank
  split_ifs <;> omega

/-- Some levels rise, none beyond the cut. -/
def Raises (d : Bool) (cut : ℤ) (lvl lvl' : ℕ × Entry → ℤ) : Prop :=
  ∀ p, lvl' p = lvl p ∨ lvl p < lvl' p ∧ switchStratum d p (lvl' p) ≤ cut

lemma Raises.refl (cut : ℤ) (lvl : ℕ × Entry → ℤ) : Raises d cut lvl lvl := fun _ => .inl rfl

lemma Raises.trans {lvl'' : ℕ × Entry → ℤ} (h : Raises d cut lvl lvl')
    (h' : Raises d cut lvl' lvl'') : Raises d cut lvl lvl'' := by
  intro p
  rcases h' p with h'p | ⟨h'p, hcut⟩
  · rw [h'p]
    exact h p
  · rcases h p with hp | ⟨hp, -⟩
    · exact .inr ⟨hp ▸ h'p, hcut⟩
    · exact .inr ⟨hp.trans h'p, hcut⟩

lemma Raises.le (h : Raises d cut lvl lvl') (p : ℕ × Entry) : lvl p ≤ lvl' p := by
  rcases h p with hp | ⟨hp, -⟩ <;> omega

/-- A level that has left its position does not rise any more. -/
lemma Raises.eq_of_left (h : Raises d cut lvl lvl')
    (hp : cut ≤ leaveRank dominant p (lvl p)) : lvl' p = lvl p := by
  rcases h p with heq | ⟨hlt, hcut⟩
  · exact heq
  · have h1 := switchStratum_bounds d p (lvl' p)
    have h2 := leaveRank_le dominant p (lvl p)
    omega

/-- Nor is it blocked afterwards. -/
lemma Raises.not_blocked (h : Raises d cut lvl lvl') (hdom : ∀ v, dominant p.1 = some v → v = d)
    (hp : cut ≤ leaveRank dominant p (lvl p)) (hfree : ¬(switchSystem N dominant).blocked lvl p) :
    ¬(switchSystem N dominant).blocked lvl' p := by
  have heq := h.eq_of_left hp
  intro hblocked
  rcases h (p.1, .known !p.2.side) with hopp | ⟨-, hcut⟩
  · simp only [switchSystem, heq, hopp] at hblocked
    exact hfree hblocked
  -- The opposite level rose, to a stratum that cannot block what has left.
  have hcut' := hcut.trans hp
  simp only [switchSystem, heq] at hblocked
  rcases hblocked with hlt | ⟨hwired, hle⟩
  · have h1 := switchStratum_bounds d (p.1, .known !p.2.side) (lvl' (p.1, .known !p.2.side))
    have h2 := leaveRank_le dominant p (lvl p)
    omega
  · rw [leaveRank, if_pos hwired, switchStratum_dominant (hdom _ hwired)] at hcut'
    omega

lemma Raises.blocked (h : Raises d cut lvl lvl')
    (heq : lvl' p = lvl p) (hb : (switchSystem N dominant).blocked lvl p) :
    (switchSystem N dominant).blocked lvl' p := by
  have hopp := h.le (p.1, .known !p.2.side)
  simp only [switchSystem, heq] at hb ⊢
  rcases hb with hb | ⟨hw, hb⟩
  · exact .inl (by omega)
  · exact .inr ⟨hw, by omega⟩

/-! ## Levels traced to a driver -/

/-- The level of a position is traced to an own level through levels that have left. -/
inductive Traced (N : SwitchNetwork) (dominant : ℕ → Option Bool) (cut : ℤ)
    (lvl : ℕ × Entry → ℤ) : ℕ × Entry → Prop
  | own {p : ℕ × Entry} (h : lvl p = N.own p.1 p.2) : Traced N dominant cut lvl p
  | arrive {p p' : ℕ × Entry} {f : ℤ → ℤ} (hlink : (switchSystem N dominant).link p p' f)
      (hp : Traced N dominant cut lvl p) (hpos : 1 ≤ lvl p)
      (hfree : ¬(switchSystem N dominant).blocked lvl p)
      (hcut : cut ≤ leaveRank dominant p (lvl p)) (h : lvl p' = f (lvl p)) :
      Traced N dominant cut lvl p'

lemma Traced.grounded
    (h : Traced N dominant cut lvl p) : (switchSystem N dominant).Grounded lvl p := by
  induction h with
  | own h => exact .own h
  | arrive hlink _ hpos hfree _ h ih => exact .arrive hlink ih hpos hfree h

lemma Traced.mono {cut' : ℤ} (hle : cut' ≤ cut)
    (h : Traced N dominant cut lvl p) : Traced N dominant cut' lvl p := by
  induction h with
  | own h => exact .own h
  | arrive hlink _ hpos hfree hcut h ih => exact .arrive hlink ih hpos hfree (hle.trans hcut) h

/-- A set of nodes closed under the switches that are not off, with its wired kind. -/
structure SwitchComponent (N : SwitchNetwork) (dominant : ℕ → Option Bool) (d : Bool)
    (C : Set ℕ) : Prop where
  wf : N.Wf
  lt : ∀ n ∈ C, n < N.nNodes
  closed : ∀ n ∈ C, ∀ s ∈ N.active n, switchOther N s n ∈ C
  kind : ∀ n ∈ C, ∀ v, dominant n = some v → v = d

lemma SwitchComponent.link_mem (hC : SwitchComponent N dominant d C) {p' : ℕ × Entry}
    {f : ℤ → ℤ} (hlink : (switchSystem N dominant).link p p' f) (hp' : p'.1 ∈ C) : p.1 ∈ C :=
  (switchSystem_stratified hC.kind hC.closed).link_mem hlink hp'

lemma Traced.raise (hC : SwitchComponent N dominant d C)
    (hr : Raises d cut lvl lvl') (h : Traced N dominant cut lvl p) :
    p.1 ∈ C → lvl' p = lvl p → Traced N dominant cut lvl' p := by
  induction h with
  | own h => exact fun _ heq => .own (heq.trans h)
  | @arrive p p' f hlink _ hpos hfree hcut h ih =>
    intro hp' heq
    have hp := hC.link_mem hlink hp'
    have hsame := hr.eq_of_left hcut
    exact .arrive hlink (ih hp hsame) (by omega) (hr.not_blocked (hC.kind p.1 hp) hcut hfree)
      (by rwa [hsame]) (by rw [heq, h, hsame])

/-! ## The invariant -/

/-- What leaves `p` has reached every position it leads to. -/
def Spread (N : SwitchNetwork) (dominant : ℕ → Option Bool) (C : Set ℕ) (lvl : ℕ × Entry → ℤ)
    (p : ℕ × Entry) : Prop :=
  ∀ p' f, p'.1 ∈ C → (switchSystem N dominant).link p p' f → N.fixed p'.1 = false →
    f (lvl p) ≤ lvl p'

lemma Spread.raise (hr : Raises d cut lvl lvl')
    (h : Spread N dominant C lvl p) (heq : lvl' p = lvl p) : Spread N dominant C lvl' p := by
  intro p' f hp' hlink hfix
  rw [heq]
  exact (h p' f hp' hlink hfix).trans (hr.le p')

/-- The item stands for the position: it is the position's own, or the item of the known level
beside an equal possible one. -/
def SwitchItem.Serves (lvl : ℕ × Entry → ℤ) (item : SwitchItem) (p : ℕ × Entry) : Prop :=
  item.node = p.1 ∧ item.entry.side = p.2.side ∧ lvl (p.1, item.entry) = lvl p ∧
    (item.entry = p.2 ∨ item.entry.possible = false)

/-- The levels have been traced, and each one is blocked, spread or waiting.  `held` are the
items of level `L` that are in no queue. -/
structure SolveInv (N : SwitchNetwork) (dominant : ℕ → Option Bool) (C : Set ℕ) (cut L : ℤ)
    (held : List SwitchItem) (q : SwitchQueues) : Prop where
  fixed : ∀ n ∈ C, N.fixed n = true → q.level n = N.own n
  own_le : ∀ n ∈ C, ∀ e, N.own n e ≤ q.level n e
  ok : ∀ n ∈ C, LevelsOk (q.level n)
  traced : ∀ p : ℕ × Entry, p.1 ∈ C → Traced N dominant cut q.lvl p
  done : ∀ p : ℕ × Entry, p.1 ∈ C → 1 ≤ q.lvl p →
    (switchSystem N dominant).blocked q.lvl p ∨ Spread N dominant C q.lvl p ∨
      ∃ item, (item ∈ q.bucket (q.lvl p) ∨ item ∈ held ∧ q.lvl p = L) ∧ item.Serves q.lvl p
  items : ∀ l, ∀ item ∈ q.bucket l, item.node ∈ C
  held_mem : ∀ item ∈ held, item.node ∈ C
  above : ∀ l > L, q.bucket l = []

/-- The levels of a node after an offer that raises an entry. -/
def offerLevels (levels : Entry → ℤ) (side known : Bool) (level : ℤ) (e : Entry) : ℤ :=
  if e.side = side ∧ (e.possible = true ∨ known = true) then max (levels e) level else levels e

/-- The entry an offer asks for. -/
abbrev offerEntry (side known : Bool) : Entry := ⟨!known, side⟩

/-- An offer, with the known and the possible kind in one equation. -/
lemma switchOffer_eq (N : SwitchNetwork) (n : ℕ) (side known : Bool) (level : ℤ)
    (q : SwitchQueues) : switchOffer N n side known level q =
      if N.fixed n = true ∨ level < 1 ∨ level ≤ q.level n (offerEntry side known) then q
      else switchPush N n (offerEntry side known) level
        { q with level := update q.level n (offerLevels (q.level n) side known level) } := by
  unfold switchOffer
  by_cases hfix : N.fixed n = true ∨ level < 1
  · rw [if_pos hfix, if_pos (by tauto)]
  rw [if_neg hfix]
  cases known with
  | true =>
    simp only [if_true, offerEntry, Bool.not_true, Entry.known]
    by_cases hle : level ≤ q.level n ⟨false, side⟩
    · rw [if_pos hle, if_pos (.inr (.inr hle))]
    rw [if_neg hle, if_neg (by tauto)]
    congr 3
    funext ⟨possible, side'⟩
    simp only [switchRaise_apply, offerLevels, Entry.maybe, Entry.mk.injEq, or_true, and_true]
    by_cases hs : side' = side
    · subst hs
      cases possible
      · simp only [Bool.false_eq_true, false_and, if_false, if_true, update_self]
        exact (max_eq_right (by omega)).symm
      · simp only [true_and, if_true]
        rw [update_of_ne (by simp)]
    · simp [hs]
  | false =>
    simp only [Bool.false_eq_true, if_false, offerEntry, Bool.not_false, Entry.maybe]
    by_cases hle : level ≤ q.level n ⟨true, side⟩
    · rw [if_pos hle, if_pos (.inr (.inr hle))]
    rw [if_neg hle, if_neg (by tauto)]
    congr 3
    funext ⟨possible, side'⟩
    simp only [offerLevels, Bool.false_eq_true, or_false]
    by_cases hs : side' = side ∧ possible = true
    · obtain ⟨rfl, rfl⟩ := hs
      simp only [update_self, and_self, if_true]
      exact (max_eq_right (by omega)).symm
    · rw [if_neg hs, update_of_ne]
      rintro ⟨⟩
      exact hs ⟨rfl, rfl⟩

lemma offerLevels_ok {levels : Entry → ℤ} (h : LevelsOk levels) (side known : Bool) {level : ℤ}
    (hpos : 1 ≤ level) (hle : level ≤ 7) : LevelsOk (offerLevels levels side known level) := by
  refine ⟨fun e => ?_, fun side' => ?_⟩
  · have := h.1 e
    unfold offerLevels
    split_ifs <;> omega
  · have hbeside := h.2 side'
    have hmaybe : levels (.maybe side') ≤ offerLevels levels side known level (.maybe side') := by
      unfold offerLevels
      split_ifs
      · exact le_max_left _ _
      · exact le_rfl
    by_cases hside : side' = side ∧ known = true
    · rw [offerLevels, offerLevels, if_pos ⟨hside.1, .inr hside.2⟩, if_pos ⟨hside.1, .inl rfl⟩]
      exact max_le_max_right level hbeside
    · rw [offerLevels, if_neg (by simpa using hside)]
      exact hbeside.trans hmaybe

/-- The links that leave a position of the component lead through the switches of its node. -/
lemma SwitchComponent.link_iff (hC : SwitchComponent N dominant d C) {p' : ℕ × Entry}
    {f : ℤ → ℤ} (hp : p.1 ∈ C) (hp' : p'.1 ∈ C) : (switchSystem N dominant).link p p' f ↔
      ∃ s ∈ N.active p.1, p'.1 = switchOther N s p.1 ∧ p'.2.side = p.2.side ∧
        (p'.2.possible = false → p.2.possible = false ∧ N.state s = .on) ∧
        f = fun level => switchReduce level (N.switches s).resistive := by
  have hback : ∀ n ∈ C, ∀ s ∈ N.active n, s ∈ N.active (switchOther N s n) ∧
      switchOther N s (switchOther N s n) = n := by
    intro n hn s hs
    exact ⟨hC.wf.active_other (hC.lt n hn) hs,
      (hC.wf.other_other (hC.lt n hn) (hC.wf.active_adj (hC.lt n hn) hs)).2⟩
  constructor
  · rintro ⟨s, hs, hother, hside, hknown, rfl⟩
    obtain ⟨hs', hother'⟩ := hback p'.1 hp' s hs
    rw [← hother] at hs' hother'
    exact ⟨s, hs', hother'.symm, hside.symm, hknown, rfl⟩
  · rintro ⟨s, hs, hother, hside, hknown, rfl⟩
    obtain ⟨hs', hother'⟩ := hback p.1 hp s hs
    rw [← hother] at hs' hother'
    exact ⟨s, hs', hother'.symm, hside.symm, hknown, rfl⟩

/-- Position `p` holds level `L`, which leaves it now. -/
structure Leaving (N : SwitchNetwork) (dominant : ℕ → Option Bool) (d : Bool) (C : Set ℕ)
    (cut L : ℤ) (q : SwitchQueues) (p : ℕ × Entry) : Prop where
  mem : p.1 ∈ C
  level : q.lvl p = L
  pos : 1 ≤ L
  le : L ≤ 7
  free : ¬(switchSystem N dominant).blocked q.lvl p
  cut_le : cut ≤ leaveRank dominant p L
  le_cut : ∀ p' : ℕ × Entry, p'.2.side = p.2.side → switchStratum d p' L ≤ cut

variable {cut L : ℤ} {held : List SwitchItem} {q q' : SwitchQueues}

lemma Leaving.raise (hC : SwitchComponent N dominant d C)
    (h : Leaving N dominant d C cut L q p) (hr : Raises d cut q.lvl q'.lvl) :
    Leaving N dominant d C cut L q' p := by
  have hcut : cut ≤ leaveRank dominant p (q.lvl p) := h.level.symm ▸ h.cut_le
  exact ⟨h.mem, (hr.eq_of_left hcut).trans h.level, h.pos, h.le,
    hr.not_blocked (hC.kind p.1 h.mem) hcut h.free, h.cut_le, h.le_cut⟩

/-- A push that is not fatal files the item. -/
lemma switchPush_of_not_aborted {level : ℤ} (h : (switchPush N n e level q).aborted = false) :
    q.aborted = false ∧ q.nItems < N.nNodes * 8 ∧ switchPush N n e level q = { q with
      bucket := update q.bucket level (q.bucket level ++ [⟨n, e, false⟩])
      nItems := q.nItems + 1 } := by
  unfold switchPush at h ⊢
  split_ifs at h ⊢ with hfull
  exact ⟨h, by omega, rfl⟩

/-- An item is filed behind those of its level. -/
lemma mem_filed {bucket : ℤ → List SwitchItem} {level l : ℤ} {i new : SwitchItem} :
    i ∈ update bucket level (bucket level ++ [new]) l ↔ i ∈ bucket l ∨ l = level ∧ i = new := by
  by_cases hl : l = level
  · subst hl
    simp
  · simp [hl]

/-- An item still serves a position whose level has not risen: the known level beside an unchanged
possible one cannot have risen. -/
lemma SwitchItem.Serves.raise (h : item.Serves q.lvl p) (hr : Raises d cut q.lvl q'.lvl)
    (hok : LevelsOk (q'.level p.1)) (heq : q'.lvl p = q.lvl p) : item.Serves q'.lvl p := by
  obtain ⟨hnode, hside, hsame, hkind⟩ := h
  refine ⟨hnode, hside, ?_, hkind⟩
  rcases hkind with hentry | hentry
  · rw [hentry]
  refine le_antisymm ?_ ?_
  · have hk : item.entry = ⟨item.entry.possible, item.entry.side⟩ := rfl
    rw [hentry, hside] at hk
    obtain ⟨m, possible, side⟩ := p
    cases possible
    · rw [hk]
    · rw [hk]
      exact hok.2 side
  · rw [heq, ← hsame]
    exact hr.le _

section Offered

variable {side known : Bool} {level : ℤ}
  (hlevels : q'.level = update q.level n (offerLevels (q.level n) side known level))

include hlevels

/-- An entry changes only to the level offered, on the side of the offer. -/
lemma lvl_offered (p : ℕ × Entry) : q'.lvl p = q.lvl p ∨ p.1 = n ∧ p.2.side = side ∧
    (p.2.possible = true ∨ known = true) ∧ q.lvl p < level ∧ q'.lvl p = level := by
  by_cases hm : p.1 = n
  · simp only [SwitchQueues.lvl, hm, hlevels, update_self, offerLevels]
    split_ifs with hcond
    · rcases le_or_gt level (q.level n p.2) with hge | hlt
      · exact .inl (max_eq_left hge)
      · exact .inr ⟨trivial, hcond.1, hcond.2, hlt, max_eq_right hlt.le⟩
    · exact .inl rfl
  · exact .inl (by simp only [SwitchQueues.lvl, hlevels, update_of_ne hm])

/-- The item of an offer serves the entries that it raises. -/
lemma serves_offered (hlt : q.level n (offerEntry side known) < level) (hm : p.1 = n)
    (hside : p.2.side = side) (hkind : p.2.possible = true ∨ known = true) (heq : q'.lvl p = level) :
    (⟨n, offerEntry side known, false⟩ : SwitchItem).Serves q'.lvl p := by
  refine ⟨hm.symm, hside.symm, ?_, ?_⟩
  · rw [heq]
    simp only [SwitchQueues.lvl, hm, hlevels, update_self, offerLevels]
    rw [if_pos ⟨trivial, by cases known <;> simp⟩]
    exact max_eq_right hlt.le
  · obtain ⟨m, possible, side'⟩ := p
    cases known
    · left
      simp only [Bool.false_eq_true, or_false] at hkind
      simp only at hside
      simp [hkind, hside]
    · exact .inr rfl

end Offered

/-! ## Offers -/

lemma switchOffer_not_aborted {side known : Bool} {level : ℤ}
    (h : (switchOffer N n side known level q).aborted = false) : q.aborted = false := by
  rw [switchOffer_eq] at h
  split_ifs at h
  · exact h
  · exact (switchPush_of_not_aborted h).1

/-- The neighbour over switch `s` has got what the level `L` at position `p` offers. -/
def Reached (N : SwitchNetwork) (L : ℤ) (p : ℕ × Entry) (q : SwitchQueues) (s : ℕ) : Prop :=
  ∀ e : Entry, e.side = p.2.side → (e.possible = false → p.2.possible = false ∧ N.state s = .on) →
    N.fixed (switchOther N s p.1) = false →
    switchReduce L (N.switches s).resistive ≤ q.level (switchOther N s p.1) e

section Leave

variable (hC : SwitchComponent N dominant d C) (h : SolveInv N dominant C cut L held q)
  (hp : Leaving N dominant d C cut L q p)

include hC h hp

/-- The invariant after the entry `e₀` of node `n` rose to `level` and was queued. -/
lemma SolveInv.raise {s : ℕ} (hs : s ∈ N.active p.1) {known : Bool}
    (hknown : known = (!p.2.possible && N.state s == .on)) (hn : n = switchOther N s p.1)
    {level : ℤ} (hlevel : level = switchReduce L (N.switches s).resistive)
    (hfix : N.fixed n = false) (hlt : q.level n (offerEntry p.2.side known) < level)
    (hlevels : q'.level = update q.level n (offerLevels (q.level n) p.2.side known level))
    (hbucket : q'.bucket = update q.bucket level
      (q.bucket level ++ [⟨n, offerEntry p.2.side known, false⟩])) :
    SolveInv N dominant C cut L held q' ∧ Raises d cut q.lvl q'.lvl := by
  obtain ⟨hpos, hle⟩ := switchReduce_range hp.pos hp.le (N.switches s).resistive
  rw [← hlevel] at hpos hle
  have hnC : n ∈ C := hn ▸ hC.closed p.1 hp.mem s hs
  have hother : ∀ m ≠ n, q'.level m = q.level m := by
    intro m hm
    rw [hlevels, update_of_ne hm]
  have hchange := lvl_offered hlevels
  have hraises : Raises d cut q.lvl q'.lvl := by
    intro p'
    rcases hchange p' with heq | ⟨-, hside, -, hlt, heq⟩
    · exact .inl heq
    · refine .inr ⟨heq ▸ hlt, ?_⟩
      rw [heq]
      have := (switchSystem_stratified (C := C) hC.kind hC.closed).strictMono p'
      exact (this.monotone hle).trans (hp.le_cut p' hside)
  have hp' := hp.raise hC hraises
  have hok : ∀ m ∈ C, LevelsOk (q'.level m) := by
    intro m hm
    by_cases hmn : m = n
    · subst hmn
      rw [hlevels, update_self]
      exact offerLevels_ok (h.ok m hm) _ _ hpos (by have := hp.le; omega)
    · rw [hother m hmn]
      exact h.ok m hm
  refine ⟨⟨?_, ?_, hok, ?_, ?_, ?_, h.held_mem, ?_⟩, hraises⟩
  · intro m hm hmfix
    rw [hother m (by rintro rfl; simp [hfix] at hmfix)]
    exact h.fixed m hm hmfix
  · intro m hm e
    exact (h.own_le m hm e).trans (hraises.le (m, e))
  · intro p' hmem
    rcases hchange p' with heq | ⟨hm, hside, hkind, -, heq⟩
    · exact (h.traced p' hmem).raise hC hraises hmem heq
    · refine .arrive (f := fun level => switchReduce level (N.switches s).resistive)
        ((hC.link_iff hp.mem hmem).mpr ⟨s, hs, hm.trans hn, hside, fun hposs => ?_, rfl⟩)
        ((h.traced p hp.mem).raise hC hraises hp.mem (hp'.level.trans hp.level.symm))
        (hp'.level.symm ▸ hp.pos) hp'.free (hp'.level.symm ▸ hp.cut_le) ?_
      · have : known = true := by simpa [hposs] using hkind
        simpa [hknown] using this
      · rw [heq, hp'.level, hlevel]
  · intro p' hmem hposp
    rcases hchange p' with heq | ⟨hm, hside, hkind, hlow, heq⟩
    · rw [heq] at hposp
      rcases h.done p' hmem hposp with hb | hspread | ⟨item, hitem, hserves⟩
      · exact .inl (hraises.blocked heq hb)
      · exact .inr (.inl (hspread.raise hraises heq))
      · refine .inr (.inr ⟨item, ?_, hserves.raise hraises (hok p'.1 hmem) heq⟩)
        rw [heq, hbucket]
        exact hitem.imp_left fun hitem => mem_filed.2 (.inl hitem)
    · refine .inr (.inr ⟨⟨n, offerEntry p.2.side known, false⟩, .inl ?_,
        serves_offered hlevels hlt hm hside hkind heq⟩)
      rw [heq, hbucket]
      exact mem_filed.2 (.inr ⟨rfl, rfl⟩)
  · intro l item hitem
    rw [hbucket] at hitem
    rcases mem_filed.1 hitem with hitem | ⟨-, rfl⟩
    · exact h.items l item hitem
    · exact hnC
  · intro l hl
    rw [hbucket, update_of_ne (by omega)]
    exact h.above l hl

/-- One offer of a level that leaves its position. -/
lemma SolveInv.offer {s : ℕ} (hs : s ∈ N.active p.1)
    (hq' : q' = switchOffer N (switchOther N s p.1) p.2.side (!p.2.possible && N.state s == .on)
      (switchReduce L (N.switches s).resistive) q) (hab : q'.aborted = false) :
    SolveInv N dominant C cut L held q' ∧ Raises d cut q.lvl q'.lvl ∧ Reached N L p q' s := by
  rw [Reached]
  generalize hk : (!p.2.possible && N.state s == .on) = known at hq'
  generalize hn : switchOther N s p.1 = n at hq' ⊢
  generalize hl : switchReduce L (N.switches s).resistive = level at hq' ⊢
  have hnC : n ∈ C := hn ▸ hC.closed p.1 hp.mem s hs
  have hpos : 1 ≤ level := hl ▸ (switchReduce_range hp.pos hp.le _).1
  -- The entry of the offer is the least of those it must reach.
  have hreach : ∀ levels : Entry → ℤ, LevelsOk levels → level ≤ levels (offerEntry p.2.side known) →
      ∀ e : Entry, e.side = p.2.side →
        (e.possible = false → p.2.possible = false ∧ N.state s = .on) → level ≤ levels e := by
    rintro levels hok hle ⟨possible, side⟩ rfl hkind
    cases possible
    · obtain ⟨h1, h2⟩ := hkind rfl
      obtain rfl : known = true := by simp [← hk, h1, h2]
      exact hle
    · cases known
      · exact hle
      · exact hle.trans (hok.2 _)
  rw [switchOffer_eq] at hq'
  by_cases hnoop : N.fixed n = true ∨ level < 1 ∨ level ≤ q.level n (offerEntry p.2.side known)
  · rw [if_pos hnoop] at hq'
    subst hq'
    refine ⟨h, Raises.refl cut _, fun e hside hkind hfix => ?_⟩
    have hle : level ≤ q'.level n (offerEntry p.2.side known) := by
      rcases hnoop with h1 | h1 | h1
      · simp [hfix] at h1
      · omega
      · exact h1
    exact hreach _ (h.ok n hnC) hle e hside hkind
  · rw [if_neg hnoop] at hq'
    simp only [not_or, not_le, Bool.not_eq_true] at hnoop
    rw [hq'] at hab
    obtain ⟨-, -, hpush⟩ := switchPush_of_not_aborted hab
    rw [hpush] at hq'
    have hraised : SolveInv N dominant C cut L held q' ∧ Raises d cut q.lvl q'.lvl :=
      h.raise hC hp hs hk.symm hn.symm hl.symm hnoop.1 hnoop.2.2 (by rw [hq']) (by rw [hq'])
    obtain ⟨hinv, hraises⟩ := hraised
    refine ⟨hinv, hraises, fun e hside hkind _ => hreach _ (hinv.ok n hnC) ?_ e hside hkind⟩
    rw [hq']
    simp only [update_self, offerLevels]
    rw [if_pos ⟨trivial, by cases known <;> simp⟩]
    exact le_max_right _ _

/-- All offers of a level that leaves its position. -/
lemma SolveInv.spread (hab : (switchSpread N p.1 p.2 L q).aborted = false) :
    SolveInv N dominant C cut L held (switchSpread N p.1 p.2 L q) ∧
      Leaving N dominant d C cut L (switchSpread N p.1 p.2 L q) p ∧
      Spread N dominant C (switchSpread N p.1 p.2 L q).lvl p := by
  have hfold : ∀ (ss : List ℕ) (q : SwitchQueues), (∀ s ∈ ss, s ∈ N.active p.1) →
      (q.aborted = false → SolveInv N dominant C cut L held q ∧
        Leaving N dominant d C cut L q p) →
      let q' := ss.foldl (fun q s => switchOffer N (switchOther N s p.1) p.2.side
        (!p.2.possible && N.state s == .on) (switchReduce L (N.switches s).resistive) q) q
      q'.aborted = false → q.aborted = false ∧ SolveInv N dominant C cut L held q' ∧
        Raises d cut q.lvl q'.lvl ∧ ∀ s ∈ ss, Reached N L p q' s := by
    intro ss
    induction ss with
    | nil => exact fun q _ hq hab => ⟨hab, (hq hab).1, Raises.refl cut _, by simp⟩
    | cons s ss ih =>
      intro q hss hq q' hab
      have hstep := fun hab₁ => (hq (switchOffer_not_aborted hab₁)).1.offer hC
        (hq (switchOffer_not_aborted hab₁)).2 (hss s mem_cons_self) rfl hab₁
      obtain ⟨hab₁, hinv, hraises, hreached⟩ := ih _ (fun s hs => hss s (mem_cons_of_mem _ hs))
        (fun hab₁ => ⟨(hstep hab₁).1,
          (hq (switchOffer_not_aborted hab₁)).2.raise hC (hstep hab₁).2.1⟩) hab
      obtain ⟨-, hraises₁, hreached₁⟩ := hstep hab₁
      refine ⟨switchOffer_not_aborted hab₁, hinv, hraises₁.trans hraises, ?_⟩
      intro s' hs' e hside hkind hfix
      rcases mem_cons.mp hs' with rfl | hs'
      · exact (hreached₁ e hside hkind hfix).trans (hraises.le (switchOther N s' p.1, e))
      · exact hreached s' hs' e hside hkind hfix
  obtain ⟨-, hinv, hraises, hreached⟩ := hfold (N.active p.1) q (fun _ h => h) (fun _ => ⟨h, hp⟩) hab
  have hp' : Leaving N dominant d C cut L (switchSpread N p.1 p.2 L q) p := hp.raise hC hraises
  refine ⟨hinv, hp', ?_⟩
  intro p' f hmem hlink hfix
  obtain ⟨s, hs, hother, hside, hkind, rfl⟩ := (hC.link_iff hp.mem hmem).mp hlink
  rw [hp'.level]
  have := hreached s hs p'.2 hside hkind (hother ▸ hfix)
  rwa [← hother] at this

end Leave

/-- What is queued by the offers: items of neighbours, on the side of the level, that have not
waited. -/
lemma mem_switchSpread_bucket {l : ℤ} (h : item ∈ (switchSpread N n e L q).bucket l) :
    item ∈ q.bucket l ∨ item.deferred = false ∧ item.entry.side = e.side ∧
      ∃ s ∈ N.active n, item.node = switchOther N s n := by
  have hoffer : ∀ (m : ℕ) (known : Bool) (level : ℤ) (q : SwitchQueues),
      item ∈ (switchOffer N m e.side known level q).bucket l →
      item ∈ q.bucket l ∨ item.deferred = false ∧ item.entry.side = e.side ∧ item.node = m := by
    intro m known level q hitem
    rw [switchOffer_eq] at hitem
    split_ifs at hitem
    · exact .inl hitem
    · unfold switchPush at hitem
      split_ifs at hitem
      · exact .inl hitem
      · rcases mem_filed.1 hitem with hitem | ⟨-, rfl⟩
        · exact .inl hitem
        · exact .inr ⟨rfl, rfl, rfl⟩
  unfold switchSpread at h
  revert q
  induction N.active n with
  | nil => exact fun h => .inl h
  | cons s ss ih =>
    intro q h
    rcases ih h with h | ⟨hdef, hside, s', hs', hnode⟩
    · refine (hoffer _ _ _ q h).imp_right ?_
      rintro ⟨hdef, hside, hnode⟩
      exact ⟨hdef, hside, s, mem_cons_self, hnode⟩
    · exact .inr ⟨hdef, hside, s', mem_cons_of_mem s hs', hnode⟩

lemma switchSpread_not_aborted
    (h : (switchSpread N n e L q).aborted = false) : q.aborted = false := by
  unfold switchSpread at h
  revert q
  induction N.active n with
  | nil => exact fun h => h
  | cons s ss ih => exact fun h => switchOffer_not_aborted (ih h)

/-! ## One level -/

/-- An invariant of the loop of a level: what the four kinds of turn keep holds at the end,
when the queue is empty and nothing waits. -/
theorem switchLevel_rule (P : List SwitchItem → SwitchQueues → Prop)
    (hrequeue : ∀ held q, P held q → q.bucket L = [] →
      P [] { q with bucket := update q.bucket L held })
    (hdrop : ∀ held q item rest, P held q → q.bucket L = item :: rest →
      (q.level item.node item.entry = L →
        L < q.level item.node (.known !item.entry.side) ∨
          dominant item.node = some (!item.entry.side) ∧
            L ≤ q.level item.node (.known !item.entry.side)) →
      P held { q with bucket := update q.bucket L rest })
    (hdefer : ∀ held q item rest, P held q → q.bucket L = item :: rest →
      dominant item.node = some (!item.entry.side) →
      P (held ++ [{ item with deferred := true }]) { q with bucket := update q.bucket L rest })
    (hspread : ∀ held q item rest, P held q → q.bucket L = item :: rest →
      q.level item.node item.entry = L → q.level item.node (.known !item.entry.side) ≤ L →
      (dominant item.node = some (!item.entry.side) →
        item.deferred = true ∧ q.level item.node (.known !item.entry.side) < L) →
      P held (switchSpread N item.node item.entry L { q with bucket := update q.bucket L rest })) :
    ∀ (fuel : ℕ) (held : List SwitchItem) (q q' : SwitchQueues), P held q →
      switchLevel N dominant L fuel held q = some q' → P [] q' ∧ q'.bucket L = [] := by
  intro fuel
  induction fuel with
  | zero =>
    intro held q q' _ hrun
    simp [switchLevel] at hrun
  | succ fuel ih =>
    intro held q q' hP hrun
    rw [switchLevel] at hrun
    cases hbucket : q.bucket L with
    | nil =>
      simp only [hbucket] at hrun
      split_ifs at hrun with hheld
      · cases hrun
        exact ⟨hheld ▸ hP, hbucket⟩
      · exact ih [] _ q' (hrequeue held q hP hbucket) hrun
    | cons item rest =>
      simp only [hbucket] at hrun
      split_ifs at hrun with hstale hblocked hfirst hwired
      · exact ih held _ q' (hdrop held q item rest hP hbucket fun h => absurd h hstale) hrun
      · exact ih held _ q' (hdrop held q item rest hP hbucket fun _ => .inl hblocked) hrun
      · exact ih _ _ q' (hdefer held q item rest hP hbucket hfirst.1) hrun
      · exact ih held _ q' (hdrop held q item rest hP hbucket fun _ => .inr hwired) hrun
      · refine ih held _ q' (hspread held q item rest hP hbucket (not_not.mp hstale) (by omega)
          fun hdom => ⟨?_, ?_⟩) hrun
        · simpa [hdom] using hfirst
        · exact lt_of_not_ge fun hge => hwired ⟨hdom, hge⟩

/-- The cut of the two phases of a level. -/
def levelCut (L : ℤ) (second : Bool) : ℤ := if second then 2 * L else 2 * L + 1

/-- In the first phase no item has waited yet; in the second only dominated values are left. -/
structure PhaseInv (d : Bool) (L : ℤ) (second : Bool) (held : List SwitchItem)
    (q : SwitchQueues) : Prop where
  flagged : ∀ l, ∀ item ∈ q.bucket l, item.deferred = true → second = true ∧ l = L
  side : second = true → ∀ item ∈ q.bucket L, item.entry.side ≠ d
  held_side : ∀ item ∈ held, item.entry.side ≠ d

lemma SolveInv.weaken {cut' : ℤ} (hle : cut' ≤ cut) (h : SolveInv N dominant C cut L held q) :
    SolveInv N dominant C cut' L held q :=
  { h with traced := fun p hp => (h.traced p hp).mono hle }

lemma mem_of_mem_rest {i : SwitchItem} (hbucket : q.bucket L = item :: rest)
    {l : ℤ} (hi : i ∈ update q.bucket L rest l) : i ∈ q.bucket l := by
  by_cases hl : l = L
  · subst hl
    rw [update_self] at hi
    exact hbucket ▸ mem_cons_of_mem item hi
  · rwa [update_of_ne hl] at hi

/-- Take the first item of the queue into the hand. -/
lemma SolveInv.pop (h : SolveInv N dominant C cut L held q) (hbucket : q.bucket L = item :: rest) :
    SolveInv N dominant C cut L (item :: held) { q with bucket := update q.bucket L rest } := by
  refine { h with
    done := fun p hp hpos => ?_
    items := fun l i hi => h.items l i (mem_of_mem_rest hbucket hi)
    held_mem := fun i hi => ?_
    above := fun l hl => ?_ }
  · refine (h.done p hp hpos).imp_right fun hdone => hdone.imp_right ?_
    rintro ⟨i, hi, hserves⟩
    refine ⟨i, ?_, hserves⟩
    rcases hi with hi | ⟨hi, hlvl⟩
    · by_cases hl : q.lvl p = L
      · rw [hl, hbucket, mem_cons] at hi
        rcases hi with rfl | hi
        · exact .inr ⟨mem_cons_self, hl⟩
        · refine .inl ?_
          change i ∈ update q.bucket L rest (q.lvl p)
          rwa [hl, update_self]
      · refine .inl ?_
        change i ∈ update q.bucket L rest (q.lvl p)
        rwa [update_of_ne hl]
    · exact .inr ⟨mem_cons_of_mem _ hi, hlvl⟩
  · rcases mem_cons.mp hi with rfl | hi
    · exact h.items L i (hbucket ▸ mem_cons_self)
    · exact h.held_mem i hi
  · change update q.bucket L rest l = []
    rw [update_of_ne (by omega)]
    exact h.above l hl

/-- Let go of an item whose positions are done. -/
lemma SolveInv.drop (h : SolveInv N dominant C cut L (item :: held) q)
    (hdone : ∀ p : ℕ × Entry, p.1 ∈ C → q.lvl p = L → item.Serves q.lvl p →
      (switchSystem N dominant).blocked q.lvl p ∨ Spread N dominant C q.lvl p) :
    SolveInv N dominant C cut L held q := by
  refine { h with
    done := fun p hp hpos => ?_
    held_mem := fun i hi => h.held_mem i (mem_cons_of_mem _ hi) }
  rcases h.done p hp hpos with hb | hs | ⟨i, hi | ⟨hi, hlvl⟩, hserves⟩
  · exact .inl hb
  · exact .inr (.inl hs)
  · exact .inr (.inr ⟨i, .inl hi, hserves⟩)
  · rcases mem_cons.mp hi with rfl | hi
    · exact (hdone p hp hlvl hserves).imp_right .inl
    · exact .inr (.inr ⟨i, .inr ⟨hi, hlvl⟩, hserves⟩)

/-- Put an item aside until the queue is empty. -/
lemma SolveInv.defer (h : SolveInv N dominant C cut L (item :: held) q) :
    SolveInv N dominant C cut L (held ++ [{ item with deferred := true }]) q := by
  refine { h with done := fun p hp hpos => ?_, held_mem := fun i hi => ?_ }
  · refine (h.done p hp hpos).imp_right fun hdone => hdone.imp_right ?_
    rintro ⟨i, hi | ⟨hi, hlvl⟩, hserves⟩
    · exact ⟨i, .inl hi, hserves⟩
    · rcases mem_cons.mp hi with rfl | hi
      · exact ⟨{ i with deferred := true },
          .inr ⟨mem_append_right _ (mem_singleton_self _), hlvl⟩, hserves⟩
      · exact ⟨i, .inr ⟨mem_append_left _ hi, hlvl⟩, hserves⟩
  · rcases mem_append.mp hi with hi | hi
    · exact h.held_mem i (mem_cons_of_mem _ hi)
    · rw [mem_singleton.mp hi]
      exact h.held_mem item mem_cons_self

/-- Queue the items that waited. -/
lemma SolveInv.requeue (h : SolveInv N dominant C cut L held q) (hempty : q.bucket L = []) :
    SolveInv N dominant C cut L [] { q with bucket := update q.bucket L held } := by
  refine { h with
    done := fun p hp hpos => ?_
    items := fun l i hi => ?_
    held_mem := by simp
    above := fun l hl => ?_ }
  · refine (h.done p hp hpos).imp_right fun hdone => hdone.imp_right ?_
    rintro ⟨i, hi, hserves⟩
    refine ⟨i, .inl ?_, hserves⟩
    change i ∈ update q.bucket L held (q.lvl p)
    by_cases hl : q.lvl p = L
    · rw [hl, update_self]
      rcases hi with hi | ⟨hi, -⟩
      · simp [hl, hempty] at hi
      · exact hi
    · rw [update_of_ne hl]
      exact hi.resolve_right fun hi => hl hi.2
  · change i ∈ update q.bucket L held l at hi
    by_cases hl : l = L
    · rw [hl, update_self] at hi
      exact h.held_mem i hi
    · rw [update_of_ne hl] at hi
      exact h.items l i hi
  · change update q.bucket L held l = []
    rw [update_of_ne (by omega)]
    exact h.above l hl

/-- What a known level has reached, an equal possible level beside it has reached too. -/
lemma Spread.beside {e' : Entry} (hside : e.side = e'.side)
    (hsame : lvl (n, e) = lvl (n, e')) (hkind : e = e' ∨ e.possible = false)
    (h : Spread N dominant C lvl (n, e)) : Spread N dominant C lvl (n, e') := by
  rcases hkind with rfl | hknown
  · exact h
  · rintro p' f hp' ⟨s, hs, hother, hside', hknown', hf⟩ hfix
    rw [← hsame]
    exact h p' f hp' ⟨s, hs, hother, hside.trans hside', fun hposs => ⟨hknown, (hknown' hposs).2⟩, hf⟩
      hfix

/-- Popping keeps the phase. -/
lemma PhaseInv.pop {second : Bool}
    (h : PhaseInv d L second held q) (hbucket : q.bucket L = item :: rest) :
    PhaseInv d L second held { q with bucket := update q.bucket L rest } := by
  exact ⟨fun l i hi => h.flagged l i (mem_of_mem_rest hbucket hi), fun h2 i hi => h.side h2 i (mem_of_mem_rest hbucket hi),
    h.held_side⟩

/-- The invariant of a level that is being taken, in one of its phases. -/
def LevelInv (N : SwitchNetwork) (dominant : ℕ → Option Bool) (d : Bool) (C : Set ℕ) (L : ℤ)
    (held : List SwitchItem) (q : SwitchQueues) : Prop :=
  q.aborted = false → ∃ second, SolveInv N dominant C (levelCut L second) L held q ∧
    PhaseInv d L second held q

lemma LevelInv.spread (hC : SwitchComponent N dominant d C) (hpos : 1 ≤ L) (hle : L ≤ 7)
    (h : LevelInv N dominant d C L held q)
    (hbucket : q.bucket L = item :: rest) (hlevel : q.level item.node item.entry = L)
    (hopp : q.level item.node (.known !item.entry.side) ≤ L)
    (hwired : dominant item.node = some (!item.entry.side) →
      item.deferred = true ∧ q.level item.node (.known !item.entry.side) < L) :
    LevelInv N dominant d C L held
      (switchSpread N item.node item.entry L { q with bucket := update q.bucket L rest }) := by
  intro hab
  obtain ⟨second, hinv, hphase⟩ :=
    h (switchSpread_not_aborted (q := { q with bucket := update q.bucket L rest }) hab)
  have hmem : item ∈ q.bucket L := hbucket ▸ mem_cons_self
  have hleaving : Leaving N dominant d C (levelCut L second) L
      { q with bucket := update q.bucket L rest } (item.node, item.entry) := by
    refine ⟨hinv.items L item hmem, hlevel, hpos, hle, ?_, ?_, ?_⟩
    · simp only [switchSystem, SwitchQueues.lvl, hlevel]
      rintro (hlt | ⟨hdom, hge⟩)
      · omega
      · have := (hwired hdom).2
        omega
    · -- A dominated value leaves in the second phase only.
      by_cases hdom : dominant item.node = some (!item.entry.side)
      · obtain rfl : second = true := (hphase.flagged L item hmem (hwired hdom).1).1
        rw [leaveRank, if_pos hdom]
        exact le_rfl
      · rw [leaveRank, if_neg hdom]
        cases second <;> simp [levelCut]
    · intro p' hside
      cases second with
      | false => exact (switchStratum_bounds d p' L).2
      | true =>
        rw [switchStratum_dominated (hside ▸ hphase.side rfl item hmem)]
        exact le_rfl
  obtain ⟨hinv', -, hspread⟩ := (hinv.pop hbucket).spread hC hleaving hab
  refine ⟨second, hinv'.drop fun p hp hlvl hserves => .inr ?_, ?_⟩
  · obtain ⟨n, e⟩ := p
    obtain ⟨hnode, hside, hsame, hkind⟩ := hserves
    simp only at hnode
    subst hnode
    exact hspread.beside hside hsame hkind
  · have hphase' := hphase.pop hbucket
    refine ⟨fun l i hi hflag => ?_, fun h2 i hi => ?_, hphase.held_side⟩
    · rcases mem_switchSpread_bucket hi with hold | ⟨hfresh, -⟩
      · exact hphase'.flagged l i hold hflag
      · simp [hfresh] at hflag
    · rcases mem_switchSpread_bucket hi with hold | ⟨-, hside, -⟩
      · exact hphase'.side h2 i hold
      · rw [hside]
        exact hphase.side h2 item hmem

/-- Taking a whole level keeps the invariant and empties its queue. -/
lemma switchLevel_inv (hC : SwitchComponent N dominant d C) (hpos : 1 ≤ L) (hle : L ≤ 7)
    {fuel : ℕ} (h : LevelInv N dominant d C L held q)
    (hrun : switchLevel N dominant L fuel held q = some q') :
    LevelInv N dominant d C L [] q' ∧ q'.bucket L = [] := by
  refine switchLevel_rule (LevelInv N dominant d C L) ?_ ?_ ?_ ?_ fuel held q q' h hrun
  · intro held q h hempty hab
    obtain ⟨second, hinv, hphase⟩ := h hab
    refine ⟨true, (hinv.requeue hempty).weaken (by cases second <;> simp [levelCut]), ?_, ?_, by simp⟩
    · intro l i hi hflag
      by_cases hl : l = L
      · exact ⟨rfl, hl⟩
      · simp only [update_of_ne hl] at hi
        exact absurd (hphase.flagged l i hi hflag).2 hl
    · intro _ i hi
      simp only [update_self] at hi
      exact hphase.held_side i hi
  · intro held q item rest h hbucket hreason hab
    obtain ⟨second, hinv, hphase⟩ := h hab
    refine ⟨second, (hinv.pop hbucket).drop fun p hp hlvl hserves => .inl ?_, hphase.pop hbucket⟩
    obtain ⟨hnode, hside, hsame, -⟩ := hserves
    have hentry : q.level item.node item.entry = L := by
      rw [hnode]
      exact hsame.trans hlvl
    have hreason' := hreason hentry
    rw [hnode, hside] at hreason'
    simp only [switchSystem, hlvl]
    exact hreason'
  · intro held q item rest h hbucket hdom hab
    obtain ⟨second, hinv, hphase⟩ := h hab
    have hphase' := hphase.pop hbucket
    refine ⟨second, (hinv.pop hbucket).defer, hphase'.flagged, hphase'.side, fun i hi => ?_⟩
    rcases mem_append.mp hi with hi | hi
    · exact hphase.held_side i hi
    · -- The waiting value is not the dominant one.
      have hmem := hinv.items L item (hbucket ▸ mem_cons_self)
      have hd := hC.kind item.node hmem _ hdom
      rw [mem_singleton.mp hi, ← hd]
      simp
  · intro held q item rest h hbucket hlevel hopp hwired
    exact h.spread hC hpos hle hbucket hlevel hopp hwired

/-- Between two levels. -/
lemma LevelInv.next (h : LevelInv N dominant d C L [] q) (hempty : q.bucket L = []) :
    LevelInv N dominant d C (L - 1) [] q := by
  intro hab
  obtain ⟨second, hinv, hphase⟩ := h hab
  refine ⟨false, ⟨hinv.fixed, hinv.own_le, hinv.ok, fun p hp => ?_, fun p hp hpos => ?_,
    hinv.items, by simp, fun l hl => ?_⟩, fun l i hi hflag => ?_, by simp, by simp⟩
  · refine (hinv.traced p hp).mono ?_
    cases second <;> simp only [levelCut, Bool.false_eq_true, if_true, if_false] <;> omega
  · refine (hinv.done p hp hpos).imp_right fun hdone => hdone.imp_right ?_
    rintro ⟨i, hi | ⟨hi, -⟩, hserves⟩
    · exact ⟨i, .inl hi, hserves⟩
    · simp at hi
  · rcases eq_or_lt_of_le (show L ≤ l by omega) with rfl | hlt
    · exact hempty
    · exact hinv.above l hlt
  · obtain ⟨-, rfl⟩ := hphase.flagged l i hi hflag
    simp [hempty] at hi

/-- The run over all levels. -/
lemma switchLevels_inv (hC : SwitchComponent N dominant d C) : ∀ (k : ℕ) (q q' : SwitchQueues),
    k ≤ 7 → LevelInv N dominant d C k [] q → switchLevels N dominant k q = some q' →
    LevelInv N dominant d C 0 [] q' := by
  intro k
  induction k with
  | zero =>
    intro q q' _ h hrun
    cases hrun
    exact_mod_cast h
  | succ k ih =>
    intro q q' hk h hrun
    simp only [switchLevels, Option.bind_eq_bind, Option.bind_eq_some_iff] at hrun
    obtain ⟨q₁, hlevel, hrest⟩ := hrun
    obtain ⟨h₁, hempty⟩ := switchLevel_inv hC (by omega) (by omega) h hlevel
    have hnext := h₁.next hempty
    rw [show ((k + 1 : ℕ) : ℤ) - 1 = (k : ℕ) by omega] at hnext
    exact ih q₁ q' (by omega) hnext hrest

/-- Nothing left to take: the levels are a grounded solution. -/
lemma LevelInv.grounded (hC : SwitchComponent N dominant d C) (h : LevelInv N dominant d C 0 [] q)
    (hab : q.aborted = false) :
    (switchSystem N dominant).IsGroundedSolution (nodePositions C) q.lvl := by
  obtain ⟨second, hinv, -⟩ := h hab
  refine ⟨⟨fun p hp hfix => ?_, fun p hp hfix => ⟨?_, ?_⟩⟩,
    fun p hp => (hinv.traced p hp).grounded⟩
  · simp only [SwitchQueues.lvl, hinv.fixed p.1 hp hfix]
    rfl
  · cases hinv.traced p hp with
    | own h => exact .inl h
    | arrive hlink _ hpos hfree _ h => exact .inr ⟨_, _, hlink, hpos, hfree, h⟩
  · rintro level (rfl | ⟨p', f, hlink, hpos, hfree, rfl⟩)
    · exact hinv.own_le p.1 hp p.2
    · have hp' : p'.1 ∈ C := hC.link_mem hlink hp
      rcases hinv.done p' hp' hpos with hb | hspread | ⟨i, hi | ⟨hi, -⟩, -⟩
      · exact absurd hb hfree
      · exact hspread p f hp hlink (by simpa [switchSystem] using hfix)
      · rw [hinv.above _ (by omega)] at hi
        simp at hi
      · simp at hi

end Lapligence.Scheduler
