import Lapligence.Framework.LevelPropagation
import Lapligence.Scheduler.Switches
import Mathlib.Data.List.GetD
import Mathlib.Tactic.IntervalCases

/-!
# The equations of a switch network

`switchSystem` states what the levels of a network should be: an unforced node takes the
greatest of its own levels and of the reduced levels that arrive through its switches, a
level leaves its node unless a stronger known opposite value (or an equal dominant one in a
wired group) is there, and a forced node keeps its own levels.

The equations alone do not determine the levels.  Blocking is
stratified by strength, with the dominant value of a wired network before the other, so the
grounded solution is unique (`switchSystem_stratified`).
-/

namespace Lapligence.Scheduler

open Function List

/-- What `llg_switches_start` establishes and `switch_set_state` keeps: the rows of the
adjacency list the switches of a node, those that are not off first. -/
structure SwitchNetwork.Wf (N : SwitchNetwork) : Prop where
  ends_lt : ∀ s < N.nSwitches, (N.switches s).a < N.nNodes ∧ (N.switches s).b < N.nNodes
  mem_adj : ∀ n < N.nNodes, ∀ s, s ∈ N.adj n ↔ s < N.nSwitches ∧
    (N.switches s).a ≠ (N.switches s).b ∧ ((N.switches s).a = n ∨ (N.switches s).b = n)
  mem_active : ∀ n < N.nNodes, ∀ s, s ∈ N.active n ↔ s ∈ N.adj n ∧ N.state s ≠ .off

/-- At most one wired kind: `d` is the value every wired net resolves equal strengths to. -/
def SwitchNetwork.WiredKind (N : SwitchNetwork) (d : Bool) : Prop :=
  ∀ n < N.nNodes, ∀ v, wiredValue (N.nodes n).resolution = some v → v = d

variable {N : SwitchNetwork} {d : Bool}
variable {n m s : ℕ} {level : ℤ} {p : ℕ × Entry} {levels : Entry → ℤ}

lemma SwitchNetwork.Wf.other_lt (hN : N.Wf) (hn : n < N.nNodes) (hs : s ∈ N.adj n) :
    switchOther N s n < N.nNodes := by
  obtain ⟨hlt, -, -⟩ := (hN.mem_adj n hn s).mp hs
  obtain ⟨ha, hb⟩ := hN.ends_lt s hlt
  unfold switchOther
  split_ifs
  · exact hb
  · exact ha

/-- A switch leads back from the other end. -/
lemma SwitchNetwork.Wf.other_other (hN : N.Wf) (hn : n < N.nNodes) (hs : s ∈ N.adj n) :
    s ∈ N.adj (switchOther N s n) ∧ switchOther N s (switchOther N s n) = n := by
  obtain ⟨hlt, hne, hend⟩ := (hN.mem_adj n hn s).mp hs
  rw [hN.mem_adj _ (hN.other_lt hn hs)]
  unfold switchOther
  rcases hend with rfl | rfl
  · simp [hlt, hne]
  · simp [hlt, hne]

lemma SwitchNetwork.Wf.active_adj (hN : N.Wf) (hn : n < N.nNodes)
    (hs : s ∈ N.active n) : s ∈ N.adj n :=
  ((hN.mem_active n hn s).mp hs).1

lemma SwitchNetwork.Wf.active_other (hN : N.Wf) (hn : n < N.nNodes)
    (hs : s ∈ N.active n) : s ∈ N.active (switchOther N s n) := by
  obtain ⟨hadj, hstate⟩ := (hN.mem_active n hn s).mp hs
  exact (hN.mem_active _ (hN.other_lt hn hadj) s).mpr ⟨(hN.other_other hn hadj).1, hstate⟩

/-! ## Levels of the drivers -/

/-- A level and what it means for the possible level beside it. -/
def LevelsOk (levels : Entry → ℤ) : Prop :=
  (∀ e, levels e = -1 ∨ 1 ≤ levels e ∧ levels e ≤ 7) ∧
    ∀ side, levels (.known side) ≤ levels (.maybe side)

lemma switchRaise_apply (levels : Entry → ℤ) (e e' : Entry) (level : ℤ) :
    switchRaise levels e level e' = if e' = e then max (levels e') level else levels e' := by
  unfold switchRaise
  by_cases he : e' = e
  · subst he
    rw [if_pos rfl]
    split_ifs with h
    · rw [update_self, max_eq_right (by omega)]
    · rw [max_eq_left (by omega)]
  · rw [if_neg he]
    split_ifs
    · rw [update_of_ne he]
    · rfl

lemma LevelsOk.raise_maybe (h : LevelsOk levels) (side : Bool)
    (hpos : 1 ≤ level) (hle : level ≤ 7) : LevelsOk (switchRaise levels (.maybe side) level) := by
  refine ⟨fun e => ?_, fun side' => ?_⟩
  · rw [switchRaise_apply]
    have := h.1 e
    split_ifs <;> omega
  · rw [switchRaise_apply, switchRaise_apply, if_neg (by simp [Entry.known, Entry.maybe])]
    have := h.2 side'
    split_ifs <;> omega

lemma LevelsOk.raise_both (h : LevelsOk levels) (side : Bool)
    (hpos : 1 ≤ level) (hle : level ≤ 7) : LevelsOk (switchRaiseBoth levels side level) := by
  refine ⟨fun e => ?_, fun side' => ?_⟩
  · rw [switchRaiseBoth, switchRaise_apply, switchRaise_apply]
    have := h.1 e
    split_ifs <;> omega
  · simp only [switchRaiseBoth, switchRaise_apply, Entry.known, Entry.maybe, Entry.mk.injEq,
      Bool.false_eq_true, Bool.true_eq_false, false_and, true_and, if_false]
    have := h.2 side'
    simp only [Entry.known, Entry.maybe] at this
    split_ifs <;> omega

lemma levelsOk_source (side : Bool) (hpos : 1 ≤ level) (hle : level ≤ 7) :
    LevelsOk (sourceLevels side level) := by
  refine ⟨fun e => ?_, fun side' => ?_⟩
  · unfold sourceLevels
    split_ifs <;> omega
  · exact le_rfl

lemma levelsOk_none : LevelsOk fun _ => -1 := ⟨fun _ => .inl rfl, fun _ => le_rfl⟩

lemma LevelsOk.driver (h : LevelsOk levels) (d : NetDriver) :
    LevelsOk (switchDriverLevels levels d) := by
  obtain ⟨value, s0, s1⟩ := d
  have h0 : (s0.val : ℤ) ≤ 7 := by omega
  have h1 : (s1.val : ℤ) ≤ 7 := by omega
  cases value with
  | zero =>
    simp only [switchDriverLevels]
    split_ifs with hz
    · exact h.raise_both false (by omega) h0
    · exact h
  | one =>
    simp only [switchDriverLevels]
    split_ifs with hz
    · exact h.raise_both true (by omega) h1
    · exact h
  | x =>
    have hx : LevelsOk (if (s0.val : ℤ) ≠ 0 then switchRaise levels (.maybe false) s0.val
        else levels) := by
      split_ifs with hz
      · exact h.raise_maybe false (by omega) h0
      · exact h
    simp only [switchDriverLevels]
    by_cases hz : (s1.val : ℤ) ≠ 0
    · rw [if_pos hz]
      exact hx.raise_maybe true (by omega) h1
    · rw [if_neg hz]
      exact hx
  | z => exact h

/-- Every node starts from levels that are in range, the known ones below the possible. -/
lemma levelsOk_own (node : SwitchNode) : LevelsOk (switchOwnLevels node) := by
  unfold switchOwnLevels
  cases node.forced with
  | some v =>
    cases v with
    | zero => exact levelsOk_source false (by decide) (by decide)
    | one => exact levelsOk_source true (by decide) (by decide)
    | x =>
      refine ⟨fun e => ?_, fun side => ?_⟩
      · simp only [strengthStrong]
        split_ifs <;> omega
      · simp [strengthStrong]
    | z => exact levelsOk_none
  | none =>
    have hdrivers : ∀ (ds : List NetDriver) (levels : Entry → ℤ), LevelsOk levels →
        LevelsOk (ds.foldl switchDriverLevels levels) := by
      intro ds
      induction ds with
      | nil => exact fun _ h => h
      | cons d ds ih => exact fun levels h => ih _ (h.driver d)
    have hpending : ∀ levels : Entry → ℤ, LevelsOk levels →
        LevelsOk (if node.startPending then
          switchRaise (switchRaise levels (.maybe false) strengthStrong) (.maybe true) strengthStrong
          else levels) := by
      intro levels h
      split_ifs
      · exact (h.raise_maybe false (by decide) (by decide)).raise_maybe true (by decide) (by decide)
      · exact h
    refine hpending _ (hdrivers _ _ ?_)
    cases node.resolution
    case tri0 => exact levelsOk_source false (by decide) (by decide)
    case tri1 => exact levelsOk_source true (by decide) (by decide)
    case supply0 => exact levelsOk_source false (by decide) (by decide)
    case supply1 => exact levelsOk_source true (by decide) (by decide)
    all_goals exact levelsOk_none

lemma SwitchNetwork.own_ok (N : SwitchNetwork) (n : ℕ) : LevelsOk (N.own n) := levelsOk_own _

/-! ## Reduction -/

lemma switchReduce_range (hpos : 1 ≤ level) (hle : level ≤ 7) (resistive : Bool) :
    1 ≤ switchReduce level resistive ∧ switchReduce level resistive ≤ level := by
  obtain ⟨k, rfl⟩ := Int.eq_ofNat_of_zero_le (show 0 ≤ level by omega)
  have h1 : 1 ≤ k := by omega
  have h7 : k ≤ 7 := by omega
  interval_cases k <;> cases resistive <;> decide

lemma switchReduce_mono {level' : ℤ} (hpos : 0 ≤ level) (hle : level ≤ level')
    (htop : level' ≤ 7) (resistive : Bool) :
    switchReduce level resistive ≤ switchReduce level' resistive := by
  obtain ⟨k, rfl⟩ := Int.eq_ofNat_of_zero_le (show 0 ≤ level by omega)
  obtain ⟨k', rfl⟩ := Int.eq_ofNat_of_zero_le (show 0 ≤ level' by omega)
  have h2 : k ≤ k' := by omega
  have h7 : k' ≤ 7 := by omega
  interval_cases k' <;> interval_cases k <;> cases resistive <;> decide

/-! ## The equations -/

/-- The equations of the network.  A known level arrives as known through a switch that is on
only; whatever leaves a node arrives as possible. -/
def switchSystem (N : SwitchNetwork) (dominant : ℕ → Option Bool) : LevelSystem (ℕ × Entry) where
  own p := N.own p.1 p.2
  fixed p := N.fixed p.1 = true
  link p p' f := ∃ s ∈ N.active p'.1, p.1 = switchOther N s p'.1 ∧ p.2.side = p'.2.side ∧
    (p'.2.possible = false → p.2.possible = false ∧ N.state s = .on) ∧
    f = fun level => switchReduce level (N.switches s).resistive
  blocked lvl p := lvl p < lvl (p.1, .known !p.2.side) ∨
    dominant p.1 = some (!p.2.side) ∧ lvl p ≤ lvl (p.1, .known !p.2.side)

/-! ## Wired groups -/

/-- `m` is joined to `n` by switches without a control. -/
def SwitchNetwork.SameGroup (N : SwitchNetwork) : ℕ → ℕ → Prop :=
  Relation.ReflTransGen fun n m => m ∈ wiredNeighbours N n

lemma SwitchNetwork.Wf.wiredNeighbours_lt (hN : N.Wf) (hn : n < N.nNodes)
    (hm : m ∈ wiredNeighbours N n) : m < N.nNodes := by
  simp only [wiredNeighbours, mem_map, mem_filter] at hm
  obtain ⟨s, ⟨hs, -⟩, rfl⟩ := hm
  exact hN.other_lt hn hs

lemma SwitchNetwork.Wf.wiredNeighbours_symm (hN : N.Wf) (hn : n < N.nNodes)
    (hm : m ∈ wiredNeighbours N n) : n ∈ wiredNeighbours N m := by
  simp only [wiredNeighbours, mem_map, mem_filter] at hm ⊢
  obtain ⟨s, ⟨hs, hctl⟩, rfl⟩ := hm
  obtain ⟨hs', hback⟩ := hN.other_other hn hs
  exact ⟨s, ⟨hs', hctl⟩, hback⟩

lemma SwitchNetwork.Wf.sameGroup_lt (hN : N.Wf) (hn : n < N.nNodes)
    (h : N.SameGroup n m) : m < N.nNodes := by
  induction h with
  | refl => exact hn
  | tail _ hm ih => exact hN.wiredNeighbours_lt ih hm

lemma SwitchNetwork.Wf.sameGroup_symm (hN : N.Wf) (hn : n < N.nNodes)
    (h : N.SameGroup n m) : N.SameGroup m n := by
  induction h with
  | refl => exact .refl
  | tail hstep hm ih => exact .head (hN.wiredNeighbours_symm (hN.sameGroup_lt hn hstep) hm) ih

/-- The wired value of a group, if one kind of value occurs in it. -/
lemma foldl_wiredValue (hd : N.WiredKind d) : ∀ (group : List ℕ) (w : Option Bool),
    (∀ n ∈ group, n < N.nNodes) → (∀ v, w = some v → v = d) → ∀ v,
    (group.foldl (fun wired n => (wiredValue (N.nodes n).resolution).or wired) w = some v ↔
      w = some v ∨ ∃ n ∈ group, wiredValue (N.nodes n).resolution = some v) := by
  intro group
  induction group with
  | nil => simp
  | cons n group ih =>
    intro w hlt hw v
    have hlt' : ∀ m ∈ group, m < N.nNodes := fun m hm => hlt m (mem_cons_of_mem n hm)
    simp only [foldl_cons, mem_cons, exists_eq_or_imp]
    cases hn : wiredValue (N.nodes n).resolution with
    | none =>
      rw [Option.none_or, ih w hlt' hw v]
      simp
    | some u =>
      have hu : u = d := hd n (hlt n mem_cons_self) u hn
      rw [Option.some_or, ih (some u) hlt' (fun v hv => by rw [← hu]; exact (Option.some.inj hv).symm) v]
      constructor
      · rintro (h | h)
        · exact .inr (.inl h)
        · exact .inr (.inr h)
      · rintro (h | h | h)
        · exact .inl (by rw [hu, hw v h])
        · exact .inl h
        · exact .inr h

/-- Dominance as the groups define it. -/
def SwitchNetwork.GroupValue (N : SwitchNetwork) (n : ℕ) (w : Option Bool) : Prop :=
  ∀ v, w = some v ↔ ∃ m, N.SameGroup n m ∧ wiredValue (N.nodes m).resolution = some v

/-- What the loop over the roots keeps: the reached nodes are whole groups, with the right
value, and every root passed has been reached. -/
structure WiredFrom (N : SwitchNetwork) (root : ℕ) (dominant : ℕ → Option (Option Bool)) :
    Prop where
  roots : ∀ n < root, (dominant n).isSome
  closed : ∀ n < N.nNodes, (dominant n).isSome → ∀ m ∈ wiredNeighbours N n, (dominant m).isSome
  value : ∀ n < N.nNodes, ∀ w, dominant n = some w → N.GroupValue n w

lemma switchWiredFrom_spec (hN : N.Wf) (hd : N.WiredKind d) :
    ∀ root ≤ N.nNodes, WiredFrom N root (switchWiredFrom N root) := by
  intro root
  induction root with
  | zero => exact fun _ => ⟨by simp, by simp [switchWiredFrom], by simp [switchWiredFrom]⟩
  | succ root ih =>
    intro hroot
    obtain ⟨hroots, hclosed, hvalue⟩ := ih (by omega)
    rw [switchWiredFrom]
    set dominant := switchWiredFrom N root
    by_cases hseen : (dominant root).isSome
    · simp only [hseen, if_true]
      refine ⟨fun n hn => ?_, hclosed, hvalue⟩
      rcases Nat.lt_succ_iff_lt_or_eq.mp hn with hn | rfl
      · exact hroots n hn
      · exact hseen
    simp only [hseen, Bool.false_eq_true, if_false]
    -- The exploration collects the group of the root.
    have hfresh : (fun n => (dominant n).isSome) root = false := by simpa using hseen
    have hmem : ∀ s : Exploration ℕ, s.Sound (wiredNeighbours N) (fun n => (dominant n).isSome) root →
        ∀ x ∈ s.found, x ∈ Finset.range N.nNodes := by
      intro s hs x hx
      exact Finset.mem_range.mpr (hN.sameGroup_lt (by omega) (hs.reachable x hx))
    obtain ⟨hs, hmarked⟩ := explore_spec (Finset.range N.nNodes) hmem N.nNodes 0 _
      (Exploration.sound_root hfresh) (by simp) (by simp)
    set s := explore (wiredNeighbours N) N.nNodes 0
      ⟨update (fun n => (dominant n).isSome) root true, [root]⟩
    have hlt : ∀ n ∈ s.found, n < N.nNodes := fun n hn => Finset.mem_range.mp (hmem s hs n hn)
    have hnext : ∀ n ∈ s.found, ∀ m ∈ wiredNeighbours N n, m ∈ s.found := by
      intro n hn m hm
      rcases (hs.seen_iff m).mp (hmarked n hn m hm) with hold | hnew
      · -- An earlier group is closed and would contain `n`.
        have := hclosed m (hN.wiredNeighbours_lt (hlt n hn) hm) hold n
          (hN.wiredNeighbours_symm (hlt n hn) hm)
        simp [hs.fresh n hn] at this
      · exact hnew
    have hgroup : ∀ n ∈ s.found, ∀ m, m ∈ s.found ↔ N.SameGroup n m := by
      intro n hn m
      constructor
      · intro hm
        exact (hN.sameGroup_symm (by omega) (hs.reachable n hn)).trans (hs.reachable m hm)
      · intro hm
        induction hm with
        | refl => exact hn
        | tail _ hstep ih => exact hnext _ ih _ hstep
    refine ⟨fun n hn => ?_, fun n hn hsome m hm => ?_, fun n hn w hw => ?_⟩
    · rcases Nat.lt_succ_iff_lt_or_eq.mp hn with hn | rfl
      · split_ifs
        · rfl
        · exact hroots n hn
      · rw [if_pos hs.root_mem]
        rfl
    · by_cases hn' : n ∈ s.found
      · rw [if_pos (hnext n hn' m hm)]
        rfl
      · rw [if_neg hn'] at hsome
        split_ifs
        · rfl
        · exact hclosed n hn hsome m hm
    · by_cases hn' : n ∈ s.found
      · rw [if_pos hn', Option.some.injEq] at hw
        intro v
        rw [← hw, foldl_wiredValue hd s.found none hlt (by simp) v]
        simp only [reduceCtorEq, false_or, hgroup n hn']
      · rw [if_neg hn'] at hw
        exact hvalue n hn w hw

/-- The wired groups: a node resolves equal strengths to `v` exactly if a switch without a
control joins it, through others, to a net that does. -/
lemma switchWiredGroups_iff (hN : N.Wf) (hd : N.WiredKind d) (hn : n < N.nNodes)
    (v : Bool) : switchWiredGroups N n = some v ↔
      ∃ m, N.SameGroup n m ∧ wiredValue (N.nodes m).resolution = some v := by
  obtain ⟨hroots, -, hvalue⟩ := switchWiredFrom_spec hN hd N.nNodes le_rfl
  obtain ⟨w, hw⟩ := Option.isSome_iff_exists.mp (hroots n hn)
  rw [switchWiredGroups, hw, ← hvalue n hn w hw v]
  rfl

lemma switchWiredGroups_kind (hN : N.Wf) (hd : N.WiredKind d) (hn : n < N.nNodes)
    {v : Bool} (h : switchWiredGroups N n = some v) : v = d := by
  obtain ⟨m, hm, hv⟩ := (switchWiredGroups_iff hN hd hn v).mp h
  exact hd m (hN.sameGroup_lt hn hm) v hv

/-! ## Strata -/

/-- Levels are ordered by strength, the dominant value before the other. -/
def switchStratum (d : Bool) (p : ℕ × Entry) (level : ℤ) : ℤ :=
  2 * level + if p.2.side = d then 1 else 0

lemma switchStratum_bounds (d : Bool) (p : ℕ × Entry) (L : ℤ) :
    2 * L ≤ switchStratum d p L ∧ switchStratum d p L ≤ 2 * L + 1 := by
  unfold switchStratum
  split_ifs <;> omega

lemma switchStratum_dominant {d : Bool} (hp : p.2.side = d) (L : ℤ) :
    switchStratum d p L = 2 * L + 1 := by
  rw [switchStratum, if_pos hp]

lemma switchStratum_dominated {d : Bool} (hp : p.2.side ≠ d) (L : ℤ) :
    switchStratum d p L = 2 * L := by
  rw [switchStratum, if_neg hp, add_zero]

lemma switchStratum_lt_of_lt (d : Bool) (p p' : ℕ × Entry) {L L' : ℤ} (h : L < L') :
    switchStratum d p L < switchStratum d p' L' := by
  have h1 := switchStratum_bounds d p L
  have h2 := switchStratum_bounds d p' L'
  omega

lemma switchStratum_lt_of_dominant {d : Bool} {p' : ℕ × Entry} {L L' : ℤ} (hp : p.2.side ≠ d)
    (hp' : p'.2.side = d) (h : L ≤ L') : switchStratum d p L < switchStratum d p' L' := by
  rw [switchStratum_dominated hp, switchStratum_dominant hp']
  omega

/-- The positions of a set of nodes. -/
def nodePositions (C : Set ℕ) : Set (ℕ × Entry) := {p | p.1 ∈ C}

lemma switchSystem_stratified {dominant : ℕ → Option Bool} {C : Set ℕ}
    (hdom : ∀ n ∈ C, ∀ v, dominant n = some v → v = d)
    (hC : ∀ n ∈ C, ∀ s ∈ N.active n, switchOther N s n ∈ C) :
    (switchSystem N dominant).Stratified (nodePositions C) (switchStratum d) 15 where
  strictMono := fun p _ _ hL => switchStratum_lt_of_lt d p p hL
  link_mem := by
    rintro ⟨m, e⟩ ⟨n, e'⟩ f ⟨s, hs, hm, -⟩ hn
    simp only at hm
    subst hm
    exact hC n hn s hs
  link := by
    rintro ⟨m, e⟩ ⟨n, e'⟩ f L ⟨s, -, -, hside, -, rfl⟩ hL
    simp only at hside
    have hle : switchReduce L (N.switches s).resistive ≤ L := by
      by_cases h7 : L ≤ 7
      · exact (switchReduce_range hL h7 _).2
      · have : [0, 1, 1, 2, 2, 3, 5, 5].getD L.toNat (0 : ℤ) = 0 :=
          getD_eq_default _ _ (by simp only [length_cons, length_nil]; omega)
        unfold switchReduce strengthSupply strengthStrong
        split_ifs <;> omega
    simp only [switchStratum, hside]
    split_ifs <;> omega
  blocked := by
    rintro lvl lvl' ⟨n, e⟩ hn heq habove
    -- Only the known opposite level matters, and it blocks from a higher stratum only.
    have hopp := habove (n, .known !e.side) hn
    have hdominant : dominant n = some (!e.side) → e.side ≠ d ∧ (!e.side) = d := by
      intro h
      have hside := hdom n hn _ h
      exact ⟨by rw [← hside]; simp, hside⟩
    simp only [switchSystem, ← heq]
    constructor
    · rintro (h | ⟨h, hle⟩)
      · rw [(hopp _ (switchStratum_lt_of_lt d _ _ h)).mp rfl]
        exact .inl h
      · obtain ⟨h1, h2⟩ := hdominant h
        rw [(hopp _ (switchStratum_lt_of_dominant h1 h2 hle)).mp rfl]
        exact .inr ⟨h, hle⟩
    · rintro (h | ⟨h, hle⟩)
      · rw [(hopp _ (switchStratum_lt_of_lt d _ _ h)).mpr rfl]
        exact .inl h
      · obtain ⟨h1, h2⟩ := hdominant h
        rw [(hopp _ (switchStratum_lt_of_dominant h1 h2 hle)).mpr rfl]
        exact .inr ⟨h, hle⟩
  own_le := fun p => by
    have := (N.own_ok p.1).1 p.2
    simp only [switchSystem, switchStratum]
    split_ifs <;> omega

end Lapligence.Scheduler
