import Lapligence.Constraints.Problem
import Lapligence.Framework.LongestPaths

/-!
# Solve-before orders

`cr_order_heights` (`constraints/solve.c`): the heights of the variables in the graph of the live
`solve … before …` orders, by relaxation, and the check that the graph has no cycle.

A height is a `uint32_t`.  On an acyclic graph heights stay below the number of variables.  On a
cycle they grow until the round limit, by at most one for each order in a round, and a height that
would wrap around no longer grows.
-/

namespace Lapligence.Constraints

open LongestPaths List Function

/-! ## The model -/

/-- `llg_cr_order_t`. -/
structure CrOrder where
  block : ℕ
  before : ℕ
  after : ℕ

def CrOrder.edge (o : CrOrder) : ℕ × ℕ := (o.before, o.after)

section Model

variable (p : CrProblem) (orders : List CrOrder) (blockEnabled varActive : ℕ → Bool)

/-- `cr_order_live`: the order is from an enabled block, between two distinct active variables that
are not randc. -/
def crOrderLive (o : CrOrder) : Bool :=
  blockEnabled o.block && decide (o.before ≠ o.after) && varActive o.before && varActive o.after &&
    !(p.vars o.before).cyclic && !(p.vars o.after).cyclic

def liveOrders : List CrOrder := orders.filter (crOrderLive p blockEnabled varActive)

end Model

/-- The height an order asks of its `before`. -/
def nextHeight (h : ℕ → ℕ) (o : CrOrder) : ℕ := (h o.after + 1) % 2 ^ 32

/-- A round of `cr_order_heights` over the live orders, and whether it changed a height. -/
def heightRound (live : List CrOrder) (h : ℕ → ℕ) : (ℕ → ℕ) × Bool :=
  live.foldl (fun s o =>
    if s.1 o.before < nextHeight s.1 o then (update s.1 o.before (nextHeight s.1 o), true)
    else s) (h, false)

/-- The loop of `cr_order_heights` with `rounds` rounds to go.  In the round after the last one the
first height that would still grow is an error that names its variable. -/
def heightRounds (live : List CrOrder) : ℕ → (ℕ → ℕ) → Except ℕ (ℕ → ℕ)
  | 0, h =>
    match live.find? fun o => h o.before < nextHeight h o with
    | some o => .error o.before
    | none => .ok h
  | rounds + 1, h =>
    let (h', changed) := heightRound live h
    if changed then heightRounds live rounds h' else .ok h'

/-- `cr_order_heights`: no heights without live orders; the error is the reported item of
`LLG_CR_REASON_SOLVE_BEFORE`. -/
def crOrderHeights (p : CrProblem) (orders : List CrOrder) (blockEnabled varActive : ℕ → Bool) :
    Except ℕ (Option (ℕ → ℕ)) :=
  let live := liveOrders p orders blockEnabled varActive
  if live = [] then .ok none
  else (heightRounds live (p.varCount + 1) fun _ => 0).map some

/-! ## The rounds as relaxation -/

/-- The edges of the order graph. -/
def orderEdges (live : List CrOrder) : List (ℕ × ℕ) := live.map CrOrder.edge

section Rounds

variable {live : List CrOrder} {h : ℕ → ℕ}

/-- As long as no height wraps around, a round relaxes the edges. -/
lemma heightRound_eq
    (hno : ∀ es, es <+: orderEdges live → ∀ v, es.foldl relax h v + 1 < 2 ^ 32) :
    heightRound live h = (round (orderEdges live) h, !decide (Stable (orderEdges live) h)) := by
  have hfold : ∀ (os : List CrOrder) (h : ℕ → ℕ) (flag : Bool),
      (∀ es, es <+: orderEdges os → ∀ v, es.foldl relax h v + 1 < 2 ^ 32) →
      os.foldl (fun s o => if s.1 o.before < nextHeight s.1 o then
          (update s.1 o.before (nextHeight s.1 o), true) else s) (h, flag) =
        ((orderEdges os).foldl relax h, flag || !decide (Stable (orderEdges os) h)) := by
    intro os
    induction os with
    | nil =>
      intro h flag _
      have hnil : Stable (orderEdges []) h := by simp [Stable, orderEdges]
      rw [decide_eq_true hnil]
      simp [orderEdges]
    | cons o os ih =>
      intro h flag hno
      have hnext : nextHeight h o = h o.after + 1 :=
        Nat.mod_eq_of_lt (hno [] nil_prefix o.after)
      have hrest : ∀ es, es <+: orderEdges os → ∀ v,
          es.foldl relax (relax h o.edge) v + 1 < 2 ^ 32 := by
        intro es hes
        exact hno (o.edge :: es) (cons_prefix_cons.2 ⟨rfl, hes⟩)
      have hstable : Stable (orderEdges (o :: os)) h ↔
          h o.after + 1 ≤ h o.before ∧ Stable (orderEdges os) h := by
        simp [Stable, orderEdges, CrOrder.edge]
      rw [foldl_cons]
      simp only [hnext]
      by_cases hlt : h o.before < h o.after + 1
      · have hrelax : relax h o.edge = update h o.before (h o.after + 1) := if_pos hlt
        have hnot : ¬Stable (orderEdges (o :: os)) h := fun hs => by
          have := (hstable.1 hs).1
          omega
        rw [if_pos hlt, ← hrelax, ih _ _ hrest, decide_eq_false hnot]
        simp [orderEdges]
      · have hrelax : relax h o.edge = h := if_neg hlt
        rw [hrelax] at hrest
        rw [if_neg hlt, ih _ _ hrest]
        have hiff : Stable (orderEdges (o :: os)) h ↔ Stable (orderEdges os) h := by
          rw [hstable]
          exact and_iff_right (by omega)
        have hfoldl : (orderEdges (o :: os)).foldl relax h = (orderEdges os).foldl relax h := by
          rw [orderEdges, map_cons, foldl_cons, hrelax]
          rfl
        rw [decide_eq_decide.2 hiff, hfoldl]
  have := hfold live h false hno
  rwa [Bool.false_or] at this

/-- The loop settles the heights, or reports an error when they do not settle. -/
lemma heightRounds_settle (live : List CrOrder) (rounds : ℕ) (h : ℕ → ℕ)
    (hno : ∀ j ≤ rounds, ∀ es, es <+: orderEdges live → ∀ v,
      es.foldl relax ((round (orderEdges live))^[j] h) v + 1 < 2 ^ 32) :
    (∀ g, settle (orderEdges live) rounds h = some g → heightRounds live rounds h = .ok g) ∧
      (settle (orderEdges live) rounds h = none → ∃ item,
        heightRounds live rounds h = .error item) := by
  induction rounds generalizing h with
  | zero =>
    have hnext : ∀ o, nextHeight h o = h o.after + 1 := fun o =>
      Nat.mod_eq_of_lt (hno 0 le_rfl [] nil_prefix o.after)
    have hstable : Stable (orderEdges live) h ↔
        live.find? (fun o => h o.before < nextHeight h o) = none := by
      rw [find?_eq_none]
      simp [Stable, orderEdges, CrOrder.edge, hnext]
    rw [heightRounds, settle]
    cases hfind : live.find? fun o => h o.before < nextHeight h o with
    | none =>
      rw [if_pos (hstable.2 hfind)]
      exact ⟨fun g hg => by rw [Option.some.inj hg], fun hnone => by simp at hnone⟩
    | some o =>
      rw [if_neg (fun hs => by simp [hstable.1 hs] at hfind)]
      exact ⟨fun g hg => by simp at hg, fun _ => ⟨o.before, rfl⟩⟩
  | succ rounds ih =>
    have hfirst : ∀ es, es <+: orderEdges live → ∀ v, es.foldl relax h v + 1 < 2 ^ 32 :=
      hno 0 (Nat.zero_le _)
    rw [heightRounds, settle, heightRound_eq hfirst]
    by_cases hs : Stable (orderEdges live) h
    · rw [if_pos hs, decide_eq_true hs, LongestPaths.round, foldl_relax_of_stable hs]
      exact ⟨fun g hg => by rw [Option.some.inj hg]; rfl, fun hnone => by simp at hnone⟩
    · rw [if_neg hs, decide_eq_false hs]
      exact ih _ fun j hj => hno (j + 1) (Nat.succ_le_succ hj)

end Rounds

/-! ## The order check -/

section Check

variable {p : CrProblem} {orders : List CrOrder} {blockEnabled varActive : ℕ → Bool}

/-- `before` is ordered before `after` by live orders, directly or through other variables. -/
def OrderedBefore (live : List CrOrder) : ℕ → ℕ → Prop :=
  Relation.TransGen fun a b => ∃ o ∈ live, o.before = a ∧ o.after = b

lemma edge_orderEdges (live : List CrOrder) :
    Edge (orderEdges live) = fun a b => ∃ o ∈ live, o.before = a ∧ o.after = b := by
  funext a b
  simp [Edge, orderEdges, CrOrder.edge]

/-- Heights of an acyclic graph never reach the number of variables. -/
lemma crOrderHeights_of_acyclic (hcount : p.varCount < 2 ^ 32)
    (horders : ∀ o ∈ orders, o.before < p.varCount ∧ o.after < p.varCount)
    (hacyclic : ∀ v, ¬OrderedBefore (liveOrders p orders blockEnabled varActive) v v) :
    ∃ height, crOrderHeights p orders blockEnabled varActive = .ok height ∧
      ∀ v, IsGreatest {n | WalkToSink
        (orderEdges (liveOrders p orders blockEnabled varActive)) v n}
        ((height.getD fun _ => 0) v) := by
  rw [crOrderHeights]
  have hlive : ∀ o ∈ liveOrders p orders blockEnabled varActive,
      o.before < p.varCount ∧ o.after < p.varCount := fun o ho =>
    horders o (mem_filter.1 ho).1
  generalize liveOrders p orders blockEnabled varActive = live at hacyclic hlive ⊢
  rw [OrderedBefore, ← edge_orderEdges] at hacyclic
  by_cases hnil : live = []
  · subst hnil
    refine ⟨none, rfl, fun v => ⟨.sink fun w => by simp [orderEdges], ?_⟩⟩
    rintro n (_ | ⟨hedge, _⟩)
    · exact le_rfl
    · simp [orderEdges] at hedge
  · have hS : ∀ e ∈ orderEdges live, e.1 ∈ Finset.range p.varCount ∧
        e.2 ∈ Finset.range p.varCount := by
      intro e he
      obtain ⟨o, ho, rfl⟩ := mem_map.1 he
      simpa [CrOrder.edge] using hlive o ho
    have hzero : ∀ v, Walk (orderEdges live) v ((fun _ => 0 : ℕ → ℕ) v) := fun v => .nil v
    obtain ⟨g, hg⟩ := exists_settle hacyclic hS (k := 0) (r := p.varCount + 1)
      (h := fun _ => 0) (by simp) hzero (fun v n hn _ => hn)
    have hbound : ∀ v n, Walk (orderEdges live) v n → n + 1 < 2 ^ 32 := by
      intro v n hw
      cases hw with
      | nil => norm_num
      | cons hedge hrest =>
        have hlt := (Walk.cons hedge hrest).lt_card hacyclic hS (hS _ hedge).1
        rw [Finset.card_range] at hlt
        omega
    have hreal : ∀ j v, Walk (orderEdges live) v ((round (orderEdges live))^[j] (fun _ => 0) v) := by
      intro j
      induction j with
      | zero => exact hzero
      | succ j ih =>
        rw [iterate_succ_apply']
        exact realized_foldl (List.Subset.refl _) ih
    have hsettle := (heightRounds_settle live (p.varCount + 1) (fun _ => 0)
      fun j _ es hes v => hbound v _ (realized_foldl hes.subset (hreal j) v)).1 g hg
    refine ⟨some g, by rw [if_neg hnil, hsettle]; rfl, fun v => ?_⟩
    exact (stable_of_settle hg).isGreatest (realized_settle hzero hg) v

/-- A cycle of live orders is reported, as long as no height wraps around. -/
lemma crOrderHeights_of_cyclic (hsmall : (p.varCount + 2) * orders.length + 1 < 2 ^ 32) {v : ℕ}
    (hcycle : OrderedBefore (liveOrders p orders blockEnabled varActive) v v) :
    ∃ item, crOrderHeights p orders blockEnabled varActive = .error item := by
  rw [crOrderHeights]
  have hlen : (liveOrders p orders blockEnabled varActive).length ≤ orders.length :=
    length_filter_le _ _
  generalize liveOrders p orders blockEnabled varActive = live at hcycle hlen ⊢
  have hedges : (orderEdges live).length = live.length := length_map _
  rw [OrderedBefore, ← edge_orderEdges] at hcycle
  have hnil : live ≠ [] := by
    rintro rfl
    obtain ⟨w, hedge, -⟩ := Relation.TransGen.head'_iff.1 hcycle
    simp [Edge, orderEdges] at hedge
  have hnone : settle (orderEdges live) (p.varCount + 1) (fun _ => 0) = none := by
    rw [Option.eq_none_iff_forall_ne_some]
    exact fun g hg => (stable_of_settle hg).acyclic v hcycle
  -- a height after `j` rounds and `i` orders is at most the number of relaxations
  have hgrow : ∀ j v, (round (orderEdges live))^[j] (fun _ => 0) v ≤ j * live.length := by
    intro j
    induction j with
    | zero => exact fun _ => Nat.zero_le _
    | succ j ih =>
      intro v
      rw [iterate_succ_apply', Nat.succ_mul, ← hedges]
      rw [← hedges] at ih
      exact foldl_relax_le (orderEdges live) ih v
  obtain ⟨item, hitem⟩ := (heightRounds_settle live (p.varCount + 1) (fun _ => 0)
    fun j hj es hes v => by
      have hle := foldl_relax_le es (hgrow j) v
      have hes' := hes.length_le
      have hmul : j * live.length ≤ (p.varCount + 1) * orders.length := Nat.mul_le_mul hj hlen
      have hsplit : (p.varCount + 2) * orders.length =
        (p.varCount + 1) * orders.length + orders.length := by ring
      omega).2 hnone
  exact ⟨item, by rw [if_neg hnil, hitem]; rfl⟩

end Check

end Lapligence.Constraints
