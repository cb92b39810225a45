import Lapligence.Scheduler.SwitchBound

/-!
# What one solve gives

`switchSolve` always returns, within the fuel of its model.  Unless it exceeds the bound on
its queue items, it leaves the grounded solution of the equations on the component it was
started in; that solution is unique, so the result does not depend on the numbering of nodes
and switches.  When all switches reduce in the same way the bound is never exceeded.
-/

namespace Lapligence.Scheduler

open Function List

variable {N : SwitchNetwork} {dominant : ℕ → Option Bool} {d : Bool} {C : Set ℕ}
variable {n start : ℕ} {g : SwitchMemory}
  {L : ℤ} {held : List SwitchItem} {q q' : SwitchQueues}

/-! ## The component -/

/-- Two nodes are joined by switches that are not off. -/
def SwitchNetwork.Connected (N : SwitchNetwork) : ℕ → ℕ → Prop :=
  Relation.ReflTransGen fun n m => m ∈ (N.active n).map fun s => switchOther N s n

/-- No mark is ahead of the epoch. -/
structure SwitchMemory.Wf (g : SwitchMemory) : Prop where
  epoch_lt : g.epoch < 2 ^ 32
  mark_le : ∀ n, g.mark n ≤ g.epoch

/-- A new epoch finds no node marked. -/
lemma switchEpoch_fresh (hg : g.Wf) :
    (switchEpoch g).Wf ∧ ∀ n, (switchEpoch g).mark n ≠ (switchEpoch g).epoch := by
  have hepoch := hg.epoch_lt
  unfold switchEpoch
  dsimp only
  split_ifs with hwrap
  · exact ⟨⟨Nat.one_lt_two_pow (by decide), fun _ => Nat.zero_le _⟩, fun _ => Nat.zero_ne_one⟩
  · have hnext : (g.epoch + 1) % 2 ^ 32 = g.epoch + 1 := by
      rcases Nat.lt_or_ge (g.epoch + 1) (2 ^ 32) with h | h
      · exact Nat.mod_eq_of_lt h
      · rw [show g.epoch + 1 = 2 ^ 32 by omega] at hwrap
        simp at hwrap
    refine ⟨⟨Nat.mod_lt _ (by decide), fun n => ?_⟩, fun n => ?_⟩ <;>
      have := hg.mark_le n <;> dsimp only <;> omega

lemma SwitchNetwork.Wf.connected_lt (hN : N.Wf) {m : ℕ} (hn : n < N.nNodes)
    (h : N.Connected n m) : m < N.nNodes := by
  induction h with
  | refl => exact hn
  | tail _ hm ih =>
    obtain ⟨s, hs, rfl⟩ := mem_map.mp hm
    exact hN.other_lt ih (hN.active_adj ih hs)

/-- The collected nodes are those joined to the start, each once. -/
lemma switchComponent_spec (hN : N.Wf) (hstart : start < N.nNodes) (hg : ∀ n, g.mark n ≠ g.epoch) :
    (switchComponent N start g).Nodup ∧
      ∀ n, n ∈ switchComponent N start g ↔ N.Connected start n := by
  have hfresh : ∀ n, (fun n => g.mark n == g.epoch) n = false := fun n => by simpa using hg n
  have hmem : ∀ s : Exploration ℕ,
      s.Sound (fun n => (N.active n).map fun s => switchOther N s n)
        (fun n => g.mark n == g.epoch) start → ∀ x ∈ s.found, x ∈ Finset.range N.nNodes :=
    fun s hs x hx => Finset.mem_range.mpr (hN.connected_lt hstart (hs.reachable x hx))
  obtain ⟨hs, hmarked⟩ := explore_spec (Finset.range N.nNodes) hmem N.nNodes 0 _
    (Exploration.sound_root (hfresh start)) (by simp) (by simp)
  refine ⟨hs.nodup, fun n => ⟨hs.reachable n, fun hn => ?_⟩⟩
  induction hn with
  | refl => exact hs.root_mem
  | tail _ hstep ih =>
    rcases (hs.seen_iff _).mp (hmarked _ ih _ hstep) with hold | hnew
    · exact absurd (beq_iff_eq.mp hold) (hg _)
    · exact hnew

/-! ## Renumbering -/

/-- Switch `s` joins the different nodes `n` and `m`. -/
def SwitchNetwork.Joins (N : SwitchNetwork) (s n m : ℕ) : Prop :=
  s < N.nSwitches ∧ (N.switches s).a ≠ (N.switches s).b ∧
    ((N.switches s).a = n ∧ (N.switches s).b = m ∨ (N.switches s).a = m ∧ (N.switches s).b = n)

lemma SwitchNetwork.Wf.joins_iff (hN : N.Wf) (hn : n < N.nNodes) (s m : ℕ) :
    s ∈ N.adj n ∧ switchOther N s n = m ↔ N.Joins s n m := by
  rw [hN.mem_adj n hn, SwitchNetwork.Joins, switchOther]
  constructor
  · rintro ⟨⟨hlt, hne, hend⟩, hother⟩
    refine ⟨hlt, hne, ?_⟩
    split_ifs at hother with ha
    · exact .inl ⟨ha, hother⟩
    · exact .inr ⟨hother, hend.resolve_left ha⟩
  · rintro ⟨hlt, hne, ⟨rfl, rfl⟩ | ⟨rfl, rfl⟩⟩
    · exact ⟨⟨hlt, hne, .inl rfl⟩, if_pos rfl⟩
    · exact ⟨⟨hlt, hne, .inr rfl⟩, if_neg hne⟩

/-- The same network with its nodes numbered by `σ` and its switches by `τ`.  The two ends of
a switch may be exchanged and the rows of the adjacency may be in any order. -/
structure Renumbering (N N' : SwitchNetwork) (σ τ : Equiv.Perm ℕ) : Prop where
  lt_iff : ∀ n, σ n < N'.nNodes ↔ n < N.nNodes
  nodes : ∀ n < N.nNodes, N'.nodes (σ n) = N.nodes n
  joins : ∀ s n m, N'.Joins (τ s) (σ n) (σ m) ↔ N.Joins s n m
  resistive : ∀ s, (N'.switches (τ s)).resistive = (N.switches s).resistive
  controlled : ∀ s, (N'.switches (τ s)).controlled = (N.switches s).controlled
  state : ∀ s, N'.state (τ s) = N.state s

namespace Renumbering

variable {N' : SwitchNetwork} {σ τ : Equiv.Perm ℕ} (h : Renumbering N N' σ τ) (hN : N.Wf) (hN' : N'.Wf)
include h hN hN'

lemma adj_iff (hn : n < N.nNodes)
    (s m : ℕ) : τ s ∈ N'.adj (σ n) ∧ switchOther N' (τ s) (σ n) = σ m ↔
      s ∈ N.adj n ∧ switchOther N s n = m := by
  rw [hN.joins_iff hn, hN'.joins_iff ((h.lt_iff n).mpr hn), h.joins]

lemma active_iff (hn : n < N.nNodes)
    (s m : ℕ) : τ s ∈ N'.active (σ n) ∧ switchOther N' (τ s) (σ n) = σ m ↔
      s ∈ N.active n ∧ switchOther N s n = m := by
  rw [hN.mem_active n hn, hN'.mem_active _ ((h.lt_iff n).mpr hn), h.state, and_right_comm,
    h.adj_iff hN hN' hn, and_right_comm]

lemma connected {m : ℕ} (hn : n < N.nNodes) (hm : N.Connected n m) : N'.Connected (σ n) (σ m) := by
  induction hm with
  | refl => exact .refl
  | @tail k m hk hstep ih =>
    obtain ⟨s, hs, hother⟩ := mem_map.mp hstep
    obtain ⟨hs', hother'⟩ := (h.active_iff hN hN' (hN.connected_lt hn hk) s m).mpr ⟨hs, hother⟩
    exact ih.tail (mem_map.mpr ⟨τ s, hs', hother'⟩)

lemma wiredNeighbours_iff
    (hn : n < N.nNodes) (m : ℕ) : σ m ∈ wiredNeighbours N' (σ n) ↔ m ∈ wiredNeighbours N n := by
  simp only [wiredNeighbours, mem_map, mem_filter]
  constructor
  · rintro ⟨s', ⟨hs, hctl⟩, hother⟩
    obtain ⟨s, rfl⟩ := τ.surjective s'
    obtain ⟨hs', hother'⟩ := (h.adj_iff hN hN' hn s m).mp ⟨hs, hother⟩
    exact ⟨s, ⟨hs', by rwa [← h.controlled s]⟩, hother'⟩
  · rintro ⟨s, ⟨hs, hctl⟩, hother⟩
    obtain ⟨hs', hother'⟩ := (h.adj_iff hN hN' hn s m).mpr ⟨hs, hother⟩
    exact ⟨τ s, ⟨hs', by rwa [h.controlled s]⟩, hother'⟩

lemma sameGroup_iff (hn : n < N.nNodes) (m : ℕ) : N'.SameGroup (σ n) (σ m) ↔ N.SameGroup n m := by
  constructor
  · intro hm
    obtain ⟨m', hm'⟩ : ∃ m', m' = σ m := ⟨_, rfl⟩
    rw [← hm'] at hm
    induction hm generalizing m with
    | refl =>
      rw [σ.injective hm']
      exact .refl
    | @tail k' m' hk hstep ih =>
      obtain ⟨k, rfl⟩ := σ.surjective k'
      have hkm := ih k rfl
      subst hm'
      exact hkm.tail ((h.wiredNeighbours_iff hN hN' (hN.sameGroup_lt hn hkm) m).mp hstep)
  · intro hm
    induction hm with
    | refl => exact .refl
    | @tail k m hk hstep ih =>
      exact ih.tail ((h.wiredNeighbours_iff hN hN' (hN.sameGroup_lt hn hk) m).mpr hstep)

omit hN hN' in
lemma wiredKind (hd : N.WiredKind d) : N'.WiredKind d := by
  intro n' hn' v hv
  obtain ⟨n, rfl⟩ := σ.surjective n'
  have hn := (h.lt_iff n).mp hn'
  rw [h.nodes n hn] at hv
  exact hd n hn v hv

lemma wiredGroups (hd : N.WiredKind d)
    (hn : n < N.nNodes) : switchWiredGroups N' (σ n) = switchWiredGroups N n := by
  refine Option.ext fun v => ?_
  rw [switchWiredGroups_iff hN hd hn v,
    switchWiredGroups_iff hN' (h.wiredKind hd) ((h.lt_iff n).mpr hn) v]
  constructor
  · rintro ⟨m', hm, hv⟩
    obtain ⟨m, rfl⟩ := σ.surjective m'
    have hm' := (h.sameGroup_iff hN hN' hn m).mp hm
    exact ⟨m, hm', by rwa [h.nodes m (hN.sameGroup_lt hn hm')] at hv⟩
  · rintro ⟨m, hm, hv⟩
    exact ⟨σ m, (h.sameGroup_iff hN hN' hn m).mpr hm, by rwa [h.nodes m (hN.sameGroup_lt hn hm)]⟩

/-- A grounded solution of the renumbered network is one of the original. -/
lemma comap_solution (hd : N.WiredKind d) (hstart : start < N.nNodes) {lvl : ℕ × Entry → ℤ}
    (hsol : (switchSystem N' (switchWiredGroups N')).IsGroundedSolution
      (nodePositions {n | N'.Connected (σ start) n}) lvl) :
    (switchSystem N (switchWiredGroups N)).IsGroundedSolution
      (nodePositions {n | N.Connected start n}) (lvl ∘ (σ.prodCongr (Equiv.refl Entry))) := by
  have hlt : ∀ p ∈ nodePositions {n | N.Connected start n}, p.1 < N.nNodes :=
    fun p hp => hN.connected_lt hstart hp
  refine hsol.comap (σ.prodCongr (Equiv.refl Entry)) ?_ ?_ ?_ ?_ ?_ ?_
  · exact fun p hp => h.connected hN hN' hstart hp
  · intro p hp
    simp [switchSystem, SwitchNetwork.own, h.nodes p.1 (hlt p hp)]
  · intro p hp
    simp [switchSystem, SwitchNetwork.fixed, h.nodes p.1 (hlt p hp)]
  · rintro ⟨m, e⟩ ⟨n, e'⟩ hn f
    constructor
    · rintro ⟨s, hs, hm, hside, hkind, rfl⟩
      obtain ⟨hs', hother⟩ := (h.active_iff hN hN' (hlt _ hn) s m).mpr ⟨hs, hm.symm⟩
      exact ⟨τ s, hs', hother.symm, hside, by rwa [h.state s], by rw [h.resistive s]⟩
    · rintro ⟨s', hs, hm, hside, hkind, rfl⟩
      obtain ⟨s, rfl⟩ := τ.surjective s'
      obtain ⟨hs', hother⟩ := (h.active_iff hN hN' (hlt _ hn) s m).mp ⟨hs, hm.symm⟩
      exact ⟨s, hs', hother.symm, hside, by rwa [h.state s] at hkind, by rw [h.resistive s]⟩
  · rintro ⟨m, e⟩ ⟨n, e'⟩ hn f ⟨s, hs, hm, -⟩
    exact Relation.ReflTransGen.tail hn (mem_map.mpr ⟨s, hs, hm.symm⟩)
  · intro p hp
    simp [switchSystem, h.wiredGroups hN hN' hd (hlt p hp)]

end Renumbering

/-! ## The solve -/

/-- What a solve returns, taken apart. -/
lemma switchSolve_eq (N : SwitchNetwork) (start : ℕ) (g : SwitchMemory) {q : SwitchQueues}
    (hrun : switchLevels N (switchWiredGroups N) 7
      ((switchComponent N start (switchEpoch g)).foldl (switchStart N)
        ⟨(switchEpoch g).level, fun _ => [], 0, false⟩) = some q) :
    ∃ r, switchSolve N start g = some r ∧ r.component = switchComponent N start (switchEpoch g) ∧
      r.aborted = q.aborted ∧ r.memory.level = q.level ∧
      r.memory.epoch = (switchEpoch g).epoch ∧
      (∀ n, r.memory.mark n = if n ∈ r.component then (switchEpoch g).epoch
        else (switchEpoch g).mark n) ∧
      ∀ n ∈ r.component, N.fixed n = false →
        r.memory.code n = switchCode N (switchWiredGroups N) q.level n ∧
          r.memory.value n = netCodeValue (r.memory.code n) := by
  refine ⟨switchRecord N (switchEpoch g) (switchComponent N start (switchEpoch g)) q, ?_, rfl, rfl,
    rfl, rfl, fun _ => rfl, fun n hn hfix => ?_⟩
  · simp only [switchSolve, hrun, Option.bind_eq_bind, Option.bind_some, pure]
  · simp only [switchRecord] at hn ⊢
    simp [hn, hfix]

/-- The solve returns. -/
lemma switchSolve_returns (N : SwitchNetwork) (start : ℕ) (g : SwitchMemory) :
    ∃ q, switchLevels N (switchWiredGroups N) 7
      ((switchComponent N start (switchEpoch g)).foldl (switchStart N)
        ⟨(switchEpoch g).level, fun _ => [], 0, false⟩) = some q := by
  refine switchLevels_total (switchWiredGroups N) 7 _ fun l => (potential_start l _ _).trans ?_
  simp only [potential, map_nil, sum_nil]
  omega

lemma switchComponent_closed (hN : N.Wf) (hd : N.WiredKind d) (hstart : start < N.nNodes) :
    SwitchComponent N (switchWiredGroups N) d {n | N.Connected start n} where
  wf := hN
  lt := fun _ hn => hN.connected_lt hstart hn
  closed := fun _ hn s hs => Relation.ReflTransGen.tail hn (mem_map.mpr ⟨s, hs, rfl⟩)
  kind := fun _ hn _ hv => switchWiredGroups_kind hN hd (hN.connected_lt hstart hn) hv

/-- The solve returns; unless it aborts its levels are a grounded solution; and it does not
abort when all switches reduce in the same way. -/
lemma switchSolve_spec (hN : N.Wf) (hd : N.WiredKind d) (hstart : start < N.nNodes) (hg : g.Wf) :
    ∃ r, switchSolve N start g = some r ∧ r.memory.Wf ∧
      (∀ n, n ∈ r.component ↔ N.Connected start n) ∧
      (∀ resistive, (∀ s < N.nSwitches, (N.switches s).resistive = resistive) →
        r.aborted = false) ∧
      (r.aborted = false → (switchSystem N (switchWiredGroups N)).IsGroundedSolution
        (nodePositions {n | N.Connected start n}) (fun p => r.memory.level p.1 p.2)) ∧
      ∀ n ∈ r.component, N.fixed n = false →
        r.memory.code n = switchCode N (switchWiredGroups N) r.memory.level n ∧
          r.memory.value n = netCodeValue (r.memory.code n) := by
  obtain ⟨hgwf, hfresh⟩ := switchEpoch_fresh hg
  obtain ⟨hnodup, hcomp⟩ := switchComponent_spec hN hstart hfresh
  have hC := switchComponent_closed hN hd hstart
  obtain ⟨q, hrun⟩ := switchSolve_returns N start g
  obtain ⟨r, hr, hrcomp, hrab, hrlevel, hrepoch, hrmark, hrcode⟩ := switchSolve_eq N start g hrun
  set comp := switchComponent N start (switchEpoch g)
  set q₀ : SwitchQueues := ⟨(switchEpoch g).level, fun _ => [], 0, false⟩ with hq₀
  have hmem : ∀ n, n ∈ r.component ↔ N.Connected start n := fun n => hrcomp ▸ hcomp n
  refine ⟨r, hr, ⟨hrepoch ▸ hgwf.epoch_lt, fun n => ?_⟩, hmem, fun resistive hres => ?_,
    fun hab => ?_, fun n hn hfix => hrlevel ▸ hrcode n hn hfix⟩
  · rw [hrmark, hrepoch]
    split_ifs
    · exact le_rfl
    · exact hgwf.mark_le n
  · have hsub : ∀ n ∈ comp, n < N.nNodes := fun n hn => hC.lt n ((hcomp n).mp hn)
    have hlength : comp.length ≤ N.nNodes := by
      rw [← toFinset_card_of_nodup hnodup]
      refine (Finset.card_le_card fun n hn => ?_).trans_eq (Finset.card_range N.nNodes)
      exact Finset.mem_range.mpr (hsub n (mem_toFinset.mp hn))
    rw [hrab]
    have huniform : UniformNodes N comp resistive := by
      refine ⟨fun n hn s hs => ?_, fun n hn s hs => hres s ?_⟩
      · exact (hcomp _).mpr (hC.closed n ((hcomp n).mp hn) s hs)
      · exact ((hN.mem_adj n (hsub n hn) s).mp (hN.active_adj (hsub n hn) hs)).1
    exact switchLevels_not_aborted huniform hlength ⟨rfl, rfl, fun _ => rfl⟩ hrun
  · rw [hrab] at hab
    have hstarted : LevelInv N (switchWiredGroups N) d {n | n ∈ comp} 7 []
        (comp.foldl (switchStart N) q₀) := Started.levelInv fun hab₀ => by
        have := switchStart_fold comp [] q₀ (fun _ => ⟨by simp, by simp, by simp [hq₀]⟩) hab₀
        simpa using this
    have hset : {n | n ∈ comp} = {n | N.Connected start n} := Set.ext hcomp
    rw [hset] at hstarted
    have := (switchLevels_inv hC 7 _ q le_rfl hstarted hrun).grounded hC hab
    rw [hrlevel]
    exact this

/-- **One solve.**  On every well-formed network with at most one wired kind, a solve returns
and covers the component of its start.  If its item bound was not exceeded, which never
happens when all switches reduce in the same way, the levels it leaves are the unique
grounded solution of the equations on the component, the codes and values are those of the
levels, and a solve of the same network numbered differently leaves the same. -/
theorem switchSolve_grounded (hN : N.Wf) (hd : N.WiredKind d) {start : ℕ}
    (hstart : start < N.nNodes) {g : SwitchMemory} (hg : g.Wf) :
    (∀ n < N.nNodes, ∀ v, switchWiredGroups N n = some v ↔
      ∃ m, N.SameGroup n m ∧ wiredValue (N.nodes m).resolution = some v) ∧
    ∃ r, switchSolve N start g = some r ∧ r.memory.Wf ∧
      (∀ n, n ∈ r.component ↔ N.Connected start n) ∧
      (∀ resistive, (∀ s < N.nSwitches, (N.switches s).resistive = resistive) →
        r.aborted = false) ∧
      (r.aborted = false →
        (switchSystem N (switchWiredGroups N)).IsGroundedSolution
          (nodePositions {n | N.Connected start n}) (fun p => r.memory.level p.1 p.2) ∧
        (∀ lvl, (switchSystem N (switchWiredGroups N)).IsGroundedSolution
            (nodePositions {n | N.Connected start n}) lvl →
          ∀ n, N.Connected start n → ∀ e, lvl (n, e) = r.memory.level n e) ∧
        (∀ n, N.Connected start n → N.fixed n = false →
          r.memory.code n = switchCode N (switchWiredGroups N) r.memory.level n ∧
            r.memory.value n = netCodeValue (r.memory.code n)) ∧
        ∀ N' σ τ, N'.Wf → Renumbering N N' σ τ → ∀ g' r', g'.Wf →
          switchSolve N' (σ start) g' = some r' → r'.aborted = false →
          ∀ n, N.Connected start n → σ n ∈ r'.component ∧
            (∀ e, r'.memory.level (σ n) e = r.memory.level n e) ∧
            (N.fixed n = false → r'.memory.code (σ n) = r.memory.code n ∧
              r'.memory.value (σ n) = r.memory.value n)) := by
  refine ⟨fun n hn v => switchWiredGroups_iff hN hd hn v, ?_⟩
  obtain ⟨r, hr, hwf, hmem, huniform, hsol, hcode⟩ := switchSolve_spec hN hd hstart hg
  have hC := switchComponent_closed hN hd hstart
  refine ⟨r, hr, hwf, hmem, huniform, fun hab => ?_⟩
  have hunique : ∀ lvl, (switchSystem N (switchWiredGroups N)).IsGroundedSolution
      (nodePositions {n | N.Connected start n}) lvl →
      ∀ n, N.Connected start n → ∀ e, lvl (n, e) = r.memory.level n e :=
    fun lvl hlvl n hn e =>
      hlvl.unique (switchSystem_stratified hC.kind hC.closed) (hsol hab) (n, e) hn
  refine ⟨hsol hab, hunique, fun n hn => hcode n ((hmem n).mpr hn), ?_⟩
  intro N' σ τ hN' hren g' r' hg' hr' hab' n hn
  have hn' : n < N.nNodes := hC.lt n hn
  obtain ⟨r'', hr'', -, hmem', -, hsol', hcode'⟩ := switchSolve_spec hN' (hren.wiredKind hd)
    ((hren.lt_iff start).mpr hstart) hg'
  obtain rfl : r'' = r' := Option.some.inj (hr''.symm.trans hr')
  have hσ : σ n ∈ r''.component := (hmem' _).mpr (hren.connected hN hN' hstart hn)
  have hlevel : ∀ e, r''.memory.level (σ n) e = r.memory.level n e := fun e =>
    hunique _ (hren.comap_solution hN hN' hd hstart (hsol' hab')) n hn e
  refine ⟨hσ, hlevel, fun hfix => ?_⟩
  obtain ⟨hc, hv⟩ := hcode n ((hmem n).mpr hn) hfix
  have hfix' : N'.fixed (σ n) = false := by rwa [SwitchNetwork.fixed, hren.nodes n hn']
  obtain ⟨hc', hv'⟩ := hcode' (σ n) hσ hfix'
  have hsame : r''.memory.code (σ n) = r.memory.code n := by
    rw [hc, hc', switchCode, switchCode, switchMode, switchMode, hren.wiredGroups hN hN' hd hn',
      hren.nodes n hn']
    simp only [hlevel]
  exact ⟨hsame, by rw [hv, hv', hsame]⟩

/-! ## Two nodes -/

/-- A net without drivers. -/
def undriven : SwitchNode := ⟨.wire, none, [], false⟩

/-- Two nodes joined by a `tran`; the second has no driver. -/
def tranPair (source : SwitchNode) : SwitchNetwork where
  nNodes := 2
  nodes := fun n => if n = 0 then source else undriven
  nSwitches := 1
  switches := fun _ => ⟨0, 1, false, false⟩
  state := fun _ => .on
  adj := fun n => if n < 2 then [0] else []
  nActive := fun _ => 1

lemma tranPair_active (source : SwitchNode) (hn : n < 2) : (tranPair source).active n = [0] := by
  simp only [SwitchNetwork.active, tranPair, if_pos hn]
  rfl

lemma tranPair_wf (source : SwitchNode) : (tranPair source).Wf where
  ends_lt := fun _ _ => ⟨Nat.zero_lt_two, Nat.one_lt_two⟩
  mem_adj := by
    intro n hn s
    have hn' : n < 2 := hn
    simp only [tranPair, hn', if_true, mem_singleton]
    omega
  mem_active := by
    intro n hn s
    have hn' : n < 2 := hn
    rw [tranPair_active source hn']
    simp only [tranPair, if_pos hn', ne_eq, reduceCtorEq, not_false_eq_true, and_true]

lemma tranPair_wiredKind {source : SwitchNode} (h : wiredValue source.resolution = none) (d : Bool) :
    (tranPair source).WiredKind d := by
  intro n _ v hv
  simp only [tranPair] at hv
  split_ifs at hv
  · simp [h] at hv
  · simp [undriven, wiredValue] at hv

/-- A strong one reaches the node without drivers. -/
theorem switchSolve_grounded_tranPair :
    ∃ r, switchSolve (tranPair ⟨.wire, none, [⟨.one, 6, 6⟩], false⟩) 0
        ⟨0, fun _ => 0, fun _ _ => -1, fun _ => .z, fun _ => 0xFF⟩ = some r ∧
      r.aborted = false ∧ r.memory.value 1 = .one ∧
      (switchSystem (tranPair ⟨.wire, none, [⟨.one, 6, 6⟩], false⟩)
          (switchWiredGroups (tranPair ⟨.wire, none, [⟨.one, 6, 6⟩], false⟩))).IsGroundedSolution
        (nodePositions {n | (tranPair ⟨.wire, none, [⟨.one, 6, 6⟩], false⟩).Connected 0 n})
        (fun p => r.memory.level p.1 p.2) := by
  have hmemory : SwitchMemory.Wf ⟨0, fun _ => 0, fun _ _ => -1, fun _ => .z, fun _ => 0xFF⟩ :=
    ⟨by decide, fun _ => le_rfl⟩
  obtain ⟨-, r, hr, -, -, huniform, hsol⟩ := switchSolve_grounded
    (tranPair_wf ⟨.wire, none, [⟨.one, 6, 6⟩], false⟩) (tranPair_wiredKind (by rfl) false)
    (show 0 < 2 by decide) hmemory
  have hab := huniform false fun _ _ => rfl
  have hvalue : (switchSolve (tranPair ⟨.wire, none, [⟨.one, 6, 6⟩], false⟩) 0
      ⟨0, fun _ => 0, fun _ _ => -1, fun _ => .z, fun _ => 0xFF⟩).map (fun r => r.memory.value 1) =
        some .one := by
    decide +kernel
  rw [hr, Option.map_some, Option.some.injEq] at hvalue
  exact ⟨r, hr, hab, hvalue, (hsol hab).1⟩

/-- The equations alone do not determine the levels: two nodes without drivers, joined by a
`tran`, may have no level at all or hold each other at strong. -/
theorem tranPair_two_solutions :
    ∃ lvl lvl' : ℕ × Entry → ℤ,
      (switchSystem (tranPair undriven) (switchWiredGroups (tranPair undriven))).IsSolution
        (nodePositions {n | (tranPair undriven).Connected 0 n}) lvl ∧
      (switchSystem (tranPair undriven) (switchWiredGroups (tranPair undriven))).IsSolution
        (nodePositions {n | (tranPair undriven).Connected 0 n}) lvl' ∧
      lvl (0, .known false) ≠ lvl' (0, .known false) := by
  set N := tranPair undriven with hN
  have hown : ∀ n e, N.own n e = -1 := by
    intro n e
    have : N.nodes n = undriven := by simp [hN, tranPair]
    rw [SwitchNetwork.own, this]
    rfl
  have hlt : ∀ p ∈ nodePositions {n | N.Connected 0 n}, p.1 < 2 :=
    fun p hp => (tranPair_wf undriven).connected_lt (by decide) hp
  have hdom : ∀ n < 2, switchWiredGroups N n = none := by
    intro n hn
    interval_cases n <;> decide +kernel
  refine ⟨fun _ => -1, fun _ => strengthStrong, ⟨?_, ?_⟩, ⟨?_, ?_⟩, by decide⟩
  · exact fun p _ _ => (hown p.1 p.2).symm
  · intro p _ _
    refine ⟨.inl (hown p.1 p.2).symm, ?_⟩
    rintro level (rfl | ⟨p', f, -, hpos, -⟩)
    · exact (hown p.1 p.2).le
    · exact absurd hpos (show ¬(1 : ℤ) ≤ -1 by decide)
  · intro p hp hfix
    have : N.nodes p.1 = undriven := by simp [hN, tranPair]
    simp [switchSystem, SwitchNetwork.fixed, this, undriven] at hfix
  · intro p hp _
    have hactive := tranPair_active undriven (hlt p hp)
    refine ⟨.inr ⟨(switchOther N 0 p.1, p.2), fun level => switchReduce level false,
      ⟨0, by rw [hactive]; simp, rfl, rfl, fun h => ⟨h, rfl⟩, rfl⟩,
      show (1 : ℤ) ≤ strengthStrong by decide, ?_, rfl⟩, ?_⟩
    · have hother : switchOther N 0 p.1 < 2 := by
        simp only [switchOther, hN, tranPair]
        split_ifs <;> omega
      simp [switchSystem, hdom _ hother]
    · rintro level (rfl | ⟨p', f, ⟨s, -, -, -, -, rfl⟩, -, -, rfl⟩)
      · simp only [switchSystem, hown]
        decide
      · exact (show switchReduce strengthStrong false ≤ strengthStrong by decide)

end Lapligence.Scheduler
