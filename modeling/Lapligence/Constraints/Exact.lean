import Lapligence.Constraints.BddOperations
import Lapligence.Constraints.BigNaturals
import Lapligence.Framework.DecisionTrees
import Lapligence.Framework.DepthFirst
import Lapligence.Framework.PostOrder

/-!
# Exact models

`cr_exact_build` copies the part of a decision diagram below some roots into compact arrays,
children first, and counts the models below every node; `cr_exact_sample` draws a model from a
uniform integer (`constraints/bdd.c`).

The count of a node is over the levels from its own one on.  The levels skipped above the root are
counted by `crExactTotal`, the bound of the integer that is drawn.

## Contents

* the model: `crExactBuild`, `crExactTotal`, `crExactWalk` and `crExactSample`;
* `crExactBuild_valid`: the compact arrays hold the trees of the diagram with their counts;
* `walk_eq`: the walk over words is `DTree.walk`;
* `exact_model_sampled`, the whole over every run of the manager.
-/

namespace Lapligence.Constraints

open Function WordLists DecisionTrees Relation List Nat Finset

/-! ## The model -/

/-- `cr_exact_t`. -/
structure CrExact where
  nodes : ℕ
  level : ℕ → ℕ
  lo : ℕ → ℕ
  hi : ℕ → ℕ
  count : ℕ → Words
  limbs : ℕ
  root : ℕ
  levels : ℕ
  roots : List ℕ

/-- `map` before the loop: the terminals keep their numbers. -/
def crExactTerminals (n : ℕ) : Option ℕ := if n < 2 then some n else none

/-- The loop of `cr_exact_build` that numbers the reachable nodes. -/
def crExactNumber (m : CrBdd) (roots : List ℕ) : DepthFirst.State ℕ :=
  DepthFirst.run 2 (fun n => [m.lo n, m.hi n]) (roots.length + 3 * m.count)
    (DepthFirst.start crExactTerminals (roots.filter (2 ≤ ·)))

/-- `map` after the loop. -/
def crExactMap (s : DepthFirst.State ℕ) (n : ℕ) : ℕ := (s.number n).getD 0

/-- The node that compact node `c` copies. -/
def crExactNode (s : DepthFirst.State ℕ) (c : ℕ) : ℕ := s.order.getD (c - 2) 0

/-- The count of compact node `c` from those of its children. -/
def crExactCount (limbs : ℕ) (level lo hi : ℕ → ℕ) (count : ℕ → Words) (c : ℕ) : Words :=
  if c = 0 then List.replicate limbs 0
  else if c = 1 then (List.replicate limbs 0).set 0 1
  else [lo c, hi c].foldl (fun dst child =>
    bnAdd dst (bnShl (count child) (level child - level c - 1) limbs) limbs) (List.replicate limbs 0)

def crExactBuild (m : CrBdd) (root : ℕ) (projections : List ℕ) : CrExact :=
  let s := crExactNumber m (root :: projections)
  let limbs := m.levels / 64 + 2
  let level := fun c => if c < 2 then m.levels else m.level (crExactNode s c)
  let lo := fun c => if c < 2 then 0 else crExactMap s (m.lo (crExactNode s c))
  let hi := fun c => if c < 2 then 0 else crExactMap s (m.hi (crExactNode s c))
  let nodes := s.order.length + 2
  let count := PostOrder.fill (crExactCount limbs level lo hi) (fun _ => []) nodes
  { nodes := nodes
    level := level
    lo := lo
    hi := hi
    count := count
    limbs := limbs
    root := crExactMap s root
    levels := m.levels
    roots := (root :: projections).map (crExactMap s) }

/-- The number of models over all levels. -/
def crExactTotal (e : CrExact) : Words := bnShl (e.count e.root) (e.level e.root) e.limbs

/-- The inner loop of `cr_exact_sample`: the `k` levels from `level` on take the low bits of `r`. -/
def crExactSkip (limbs : ℕ) : ℕ → ℕ → Words → (ℕ → Bool) → Words × (ℕ → Bool)
  | 0, _, r, bits => (r, bits)
  | k + 1, level, r, bits =>
    crExactSkip limbs k (level + 1) (bnShr r 1 limbs)
      (update bits level (r.getD 0 0 &&& 1#64 != 0))

/-- The outer loop of `cr_exact_sample`; `none` is the fatal error at the false terminal. -/
def crExactLoop (e : CrExact) : ℕ → ℕ → ℕ → Words → (ℕ → Bool) → Option (ℕ → Bool)
  | 0, _, _, _, _ => none
  | fuel + 1, n, level, r, bits =>
    let (r, bits) := crExactSkip e.limbs (e.level n - level) level r bits
    let level := max level (e.level n)
    if n < 2 then if n ≠ 1 then none else some bits
    else
      let lo := e.lo n
      let w := bnShl (e.count lo) (e.level lo - e.level n - 1) e.limbs
      if bnCmp r w e.limbs = .lt then
        crExactLoop e fuel lo (level + 1) r (update bits level false)
      else crExactLoop e fuel (e.hi n) (level + 1) (bnSub r w e.limbs) (update bits level true)

/-- The walk of `cr_exact_sample` from the integer `r`. -/
def crExactWalk (e : CrExact) (r : Words) (bits : ℕ → Bool) : Option (ℕ → Bool) :=
  crExactLoop e (e.levels + 1) e.root 0 r bits

/-- `cr_exact_sample` with at most `attempts` attempts to draw the integer: the bits and the new
cursor of the stream. -/
def crExactSample (e : CrExact) (draw : ℕ → BitVec 32) (attempts cursor : ℕ) (bits : ℕ → Bool) :
    Option ((ℕ → Bool) × ℕ) := do
  let (r, cursor) ← bnUniform draw (crExactTotal e) e.limbs attempts cursor
  let bits ← crExactWalk e r bits
  pure (bits, cursor)

/-! ## Diagrams as trees -/

/-- The nodes of the manager as a table. -/
def CrBdd.nodeTable (m : CrBdd) : Table := ⟨m.level, m.lo, m.hi⟩

/-- The compact nodes as a table. -/
def CrExact.nodeTable (e : CrExact) : Table := ⟨e.level, e.lo, e.hi⟩

/-- The value of compact node `c`. -/
def CrExact.eval (e : CrExact) (env : ℕ → Bool) (c : ℕ) : Bool := (e.nodeTable.tree c).eval env

variable {m : CrBdd}
variable {c x : ℕ} {r : Words}

lemma CrBdd.Reduced.table_ordered (h : m.Reduced) : m.nodeTable.Ordered m.levels m.count where
  level_leaf := h.level_terminal
  child_lt := h.child_lt
  level_lt := h.ordered

lemma CrBdd.Reduced.eval_tree (h : m.Reduced) (env : ℕ → Bool) :
    ∀ n < m.count, (m.nodeTable.tree n).eval env = m.eval env n := by
  refine h.table_ordered.induction (fun n hn => ?_) fun n hn hlt hlo hhi => ?_
  · rw [Table.tree_leaf _ hn, CrBdd.eval, if_pos hn]
    rfl
  · rw [h.table_ordered.tree_node hn hlt, DTree.eval, h.eval_node env hn hlt, hlo, hhi]
    rfl

/-! ## Compaction -/

/-- What the numbering loop leaves. -/
lemma crExactNumber_inv (h : m.Reduced) {roots : List ℕ} (hroots : ∀ r ∈ roots, r < m.count) :
    DepthFirst.Inv 2 (fun n => [m.lo n, m.hi n]) crExactTerminals (roots.filter (2 ≤ ·))
        (Finset.Ico 2 m.count) id (crExactNumber m roots) ∧
      (crExactNumber m roots).stack = [] := by
  refine DepthFirst.run_spec ?_ ?_ ?_ ?_
  · intro x hx c hc
    rw [mem_Ico] at hx
    obtain ⟨hlo, hhi⟩ := h.child_lt x hx.1 hx.2
    rcases mem_pair.1 hc with rfl | rfl
    · exact hlo
    · exact hhi
  · intro x hx c hc
    rw [mem_Ico] at hx
    obtain ⟨hlo, hhi⟩ := h.child_lt x hx.1 hx.2
    have hlt : c < m.count := by
      rcases mem_pair.1 hc with rfl | rfl
      · exact hlo.trans hx.2
      · exact hhi.trans hx.2
    rcases lt_or_ge c 2 with hc2 | hc2
    · exact .inl (by rw [crExactTerminals, if_pos hc2]; rfl)
    · exact .inr (mem_Ico.2 ⟨hc2, hlt⟩)
  · intro r hr
    rw [mem_filter, decide_eq_true_iff] at hr
    exact mem_Ico.2 ⟨hr.2, hroots r hr.1⟩
  · have hlen := length_filter_le (fun r => decide (2 ≤ r)) roots
    simp only [length_cons, length_nil, sum_const, Nat.card_Ico, Nat.nsmul_eq_mul]
    omega

/-- Numbers of the nodes: a terminal keeps its own, and another node has the place of its copy. -/
structure Renumbered (m : CrBdd) (s : DepthFirst.State ℕ) : Prop where
  map_terminal : ∀ n < 2, crExactMap s n = n
  map_node : ∀ n, 2 ≤ n → (s.number n).isSome → 2 ≤ crExactMap s n ∧
    crExactMap s n < s.order.length + 2 ∧ crExactNode s (crExactMap s n) = n
  number_terminal : ∀ n < 2, (s.number n).isSome
  node_bounds : ∀ c, 2 ≤ c → c < s.order.length + 2 →
    2 ≤ crExactNode s c ∧ crExactNode s c < m.count
  child : ∀ c, 2 ≤ c → c < s.order.length + 2 →
    ∀ x ∈ [m.lo (crExactNode s c), m.hi (crExactNode s c)], (s.number x).isSome ∧ crExactMap s x < c

lemma renumbered (h : m.Reduced) {roots : List ℕ} (hroots : ∀ r ∈ roots, r < m.count) :
    Renumbered m (crExactNumber m roots) := by
  obtain ⟨hinv, -⟩ := crExactNumber_inv h hroots
  set s := crExactNumber m roots
  have hnot : ∀ n < 2, n ∉ s.order := fun n hn hmem => by
    have := mem_Ico.1 (hinv.mem_order n hmem)
    omega
  have hterm : ∀ n < 2, s.number n = some n := fun n hn => by
    rw [hinv.number_known n (hnot n hn), crExactTerminals, if_pos hn]
  have hplace : ∀ c, 2 ≤ c → c < s.order.length + 2 →
      s.order[c - 2]? = some (crExactNode s c) := by
    intro c hc hlt
    have hin : c - 2 < s.order.length := by omega
    rw [crExactNode, getD_eq_getElem _ _ hin, List.getElem?_eq_getElem hin]
  have hmap : ∀ (i n : ℕ), s.order[i]? = some n → crExactMap s n = i + 2 := fun i n hi => by
    rw [crExactMap, hinv.number_order i n hi, Option.getD_some]
  refine ⟨fun n hn => ?_, fun n hn hs => ?_, fun n hn => ?_, fun c hc hlt => ?_,
    fun c hc hlt x hx => ?_⟩
  · rw [crExactMap, hterm n hn, Option.getD_some]
  · rcases hinv.exists_order hs with hknown | ⟨i, hi⟩
    · rw [crExactTerminals, if_neg (by omega)] at hknown
      cases hknown
    · have hlt := (List.getElem?_eq_some_iff.1 hi).1
      rw [hmap i n hi, crExactNode, Nat.add_sub_cancel, getD_eq_getElem?_getD, hi]
      exact ⟨by omega, by omega, rfl⟩
  · rw [hterm n hn]
    rfl
  · exact mem_Ico.1 (hinv.mem_order _ (mem_of_getElem? (hplace c hc hlt)))
  · rcases hinv.children_first _ _ (hplace c hc hlt) x hx with hknown | ⟨j, hj, hxj⟩
    · have hx2 : x < 2 := by
        by_contra hge
        rw [crExactTerminals, if_neg hge] at hknown
        cases hknown
      rw [crExactMap, hterm x hx2]
      exact ⟨rfl, hx2.trans_le hc⟩
    · rw [hmap j x hxj, hinv.number_order j x hxj]
      exact ⟨rfl, by omega⟩

/-- Every root has a number. -/
lemma number_root (h : m.Reduced) {roots : List ℕ} (hroots : ∀ r ∈ roots, r < m.count) :
    ∀ r ∈ roots, ((crExactNumber m roots).number r).isSome := by
  intro r hr
  rcases lt_or_ge r 2 with hr2 | hr2
  · exact (renumbered h hroots).number_terminal r hr2
  · obtain ⟨hinv, hstack⟩ := crExactNumber_inv h hroots
    have hmem : r ∈ roots.filter (2 ≤ ·) := mem_filter.2 ⟨hr, decide_eq_true hr2⟩
    rcases hinv.mem_roots r hmem with hs | hs
    · exact hs
    · rw [hstack] at hs
      cases hs

section Build

variable {root : ℕ} {projections : List ℕ}

lemma CrExact.level_of_lt (hc : c < 2) :
    (crExactBuild m root projections).level c = m.levels := if_pos hc

lemma CrExact.level_of_ge (hc : 2 ≤ c) : (crExactBuild m root projections).level c =
    m.level (crExactNode (crExactNumber m (root :: projections)) c) := if_neg (by omega)

lemma CrExact.lo_of_ge (hc : 2 ≤ c) : (crExactBuild m root projections).lo c =
    crExactMap (crExactNumber m (root :: projections))
      (m.lo (crExactNode (crExactNumber m (root :: projections)) c)) := if_neg (by omega)

lemma CrExact.hi_of_ge (hc : 2 ≤ c) : (crExactBuild m root projections).hi c =
    crExactMap (crExactNumber m (root :: projections))
      (m.hi (crExactNode (crExactNumber m (root :: projections)) c)) := if_neg (by omega)

variable (h : m.Reduced) (hroots : ∀ r ∈ root :: projections, r < m.count)

include h hroots

/-- The copy of a numbered node keeps its level. -/
lemma level_map {n : ℕ} (hn : ((crExactNumber m (root :: projections)).number n).isSome) :
    (crExactBuild m root projections).level
      (crExactMap (crExactNumber m (root :: projections)) n) = m.level n := by
  have hren := renumbered h hroots
  rcases lt_or_ge n 2 with hn2 | hn2
  · rw [hren.map_terminal n hn2, CrExact.level_of_lt hn2, h.level_terminal n hn2]
  · obtain ⟨hge, -, hnode⟩ := hren.map_node n hn2 hn
    rw [CrExact.level_of_ge hge, hnode]

lemma exact_ordered : (crExactBuild m root projections).nodeTable.Ordered m.levels
    (crExactBuild m root projections).nodes := by
  have hren := renumbered h hroots
  refine ⟨fun n hn => CrExact.level_of_lt hn, fun c hc hlt => ?_, fun c hc hlt => ?_⟩
  · refine ⟨?_, ?_⟩
    · exact (CrExact.lo_of_ge hc).trans_lt (hren.child c hc hlt _ (by simp)).2
    · exact (CrExact.hi_of_ge hc).trans_lt (hren.child c hc hlt _ (by simp)).2
  · obtain ⟨hge, hcount⟩ := hren.node_bounds c hc hlt
    obtain ⟨hlo, hhi⟩ := h.ordered _ hge hcount
    have hslo := (hren.child c hc hlt _ (mem_pair.2 (.inl rfl))).1
    have hshi := (hren.child c hc hlt _ (mem_pair.2 (.inr rfl))).1
    refine ⟨?_, ?_⟩
    · simp only [CrExact.nodeTable]
      rw [CrExact.lo_of_ge hc, CrExact.level_of_ge hc, level_map h hroots hslo]
      exact hlo
    · simp only [CrExact.nodeTable]
      rw [CrExact.hi_of_ge hc, CrExact.level_of_ge hc, level_map h hroots hshi]
      exact hhi

/-- The compact copy of a numbered node has its tree. -/
lemma tree_map : ∀ n < m.count, ((crExactNumber m (root :: projections)).number n).isSome →
    (crExactBuild m root projections).nodeTable.tree
      (crExactMap (crExactNumber m (root :: projections)) n) = m.nodeTable.tree n := by
  have hren := renumbered h hroots
  refine h.table_ordered.tree_copy (exact_ordered h hroots) hren.map_terminal fun n hn hs => ?_
  obtain ⟨hge, hlt, hnode⟩ := hren.map_node n hn hs
  have hslo := (hren.child _ hge hlt (m.lo n) (by rw [hnode]; simp)).1
  have hshi := (hren.child _ hge hlt (m.hi n) (by rw [hnode]; simp)).1
  refine ⟨hge, hlt, level_map h hroots hs, ?_, ?_, hslo, hshi⟩
  · exact (CrExact.lo_of_ge hge).trans (by rw [hnode]; rfl)
  · exact (CrExact.hi_of_ge hge).trans (by rw [hnode]; rfl)

/-- The compact root evaluates as the root does. -/
lemma eval_crExactRoot (env : ℕ → Bool) :
    (crExactBuild m root projections).eval env (crExactBuild m root projections).root =
      m.eval env root := by
  have hlt := hroots root mem_cons_self
  have htree := tree_map h hroots root hlt (number_root h hroots root mem_cons_self)
  rw [← h.eval_tree env root hlt, ← htree]
  rfl

end Build

/-! ## Counts -/

/-- What the readers of a compact model rely on: it is ordered, and every count is the exact number
of models over the levels from its node on. -/
structure CrExact.Valid (e : CrExact) : Prop where
  two_le : 2 ≤ e.nodes
  ordered : e.nodeTable.Ordered e.levels e.nodes
  limbs_eq : e.limbs = e.levels / 64 + 2
  count_exact : ∀ c < e.nodes, Stores e.limbs (e.count c) ((e.nodeTable.tree c).count e.levels)
  root_lt : e.root < e.nodes

/-- Numbers of models fit the limbs. -/
lemma lt_limbs {levels level v : ℕ} (hv : v ≤ 2 ^ (levels - level)) :
    v < 2 ^ (64 * (levels / 64 + 2)) :=
  hv.trans_lt (Nat.pow_lt_pow_right (by norm_num) (by omega))

lemma stores_one {limbs : ℕ} (h : 0 < limbs) : Stores limbs ((List.replicate limbs 0).set 0 1) 1 := by
  obtain ⟨k, rfl⟩ := exists_eq_succ_of_ne_zero h.ne'
  refine ⟨by simp, ?_⟩
  rw [replicate_succ, set_cons_zero, wordsNat_cons, wordsNat_replicate_zero]
  rfl

lemma stores_crExactCount {T : Table} {L nodes : ℕ} (h : T.Ordered L nodes) (hc : c < nodes)
    {count : ℕ → Words} (hcount : ∀ d < c, Stores (L / 64 + 2) (count d) ((T.tree d).count L)) :
    Stores (L / 64 + 2) (crExactCount (L / 64 + 2) T.level T.lo T.hi count c)
      ((T.tree c).count L) := by
  unfold crExactCount
  split_ifs with h0 h1
  · rw [h0, T.tree_leaf (by norm_num)]
    exact stores_zero _
  · rw [h1, T.tree_leaf (by norm_num)]
    exact stores_one (by omega)
  · have hc2 : 2 ≤ c := by omega
    obtain ⟨hlo, hhi⟩ := h.child_lt c hc2 hc
    have hordered := h.tree_ordered c hc
    have hle := DTree.count_le hordered
    rw [h.tree_node hc2 hc] at hle ⊢
    have hbranch : ∀ d, d < c → T.level c < T.level d →
        Stores (L / 64 + 2) (bnShl (count d) (T.level d - T.level c - 1) (L / 64 + 2))
          ((T.tree d).size L (T.level c + 1)) := by
      intro d hd hlevel
      have hsize := DTree.size_le (h.tree_ordered d (hd.trans hc))
        (show T.level c + 1 ≤ (T.tree d).top L by rw [h.top_tree (hd.trans hc)]; exact hlevel)
      have hfit := lt_limbs hsize
      rw [DTree.size, h.top_tree (hd.trans hc), sub_add_eq] at hfit ⊢
      exact (hcount d hd).bnShl hfit
    obtain ⟨hllo, hlhi⟩ := h.level_lt c hc2 hc
    have hslo := hbranch _ hlo hllo
    have hshi := hbranch _ hhi hlhi
    have hsum : (DTree.node (T.level c) (T.tree (T.lo c)) (T.tree (T.hi c))).count L =
        (T.tree (T.lo c)).size L (T.level c + 1) + (T.tree (T.hi c)).size L (T.level c + 1) := rfl
    have hfit := lt_limbs hle
    rw [hsum] at hfit ⊢
    rw [foldl_cons, foldl_cons, foldl_nil]
    have hfirst := (stores_zero (L / 64 + 2)).bnAdd hslo (by rw [zero_add]; omega)
    rw [zero_add] at hfirst
    exact hfirst.bnAdd hshi hfit

/-- **The compact model is valid.** -/
lemma crExactBuild_valid {root : ℕ} {projections : List ℕ} (h : m.Reduced)
    (hroots : ∀ r ∈ root :: projections, r < m.count) : (crExactBuild m root projections).Valid where
  two_le := le_add_left 2 _
  ordered := exact_ordered h hroots
  limbs_eq := rfl
  count_exact := by
    intro c
    induction c using Nat.strong_induction_on with
    | _ c ih =>
      intro hc
      have hfill : (crExactBuild m root projections).count c =
          crExactCount _ _ _ _ (PostOrder.fill _ _ c) c := PostOrder.fill_of_lt hc
      rw [hfill]
      refine stores_crExactCount (exact_ordered h hroots) hc fun d hd => ?_
      rw [PostOrder.fill_eq_of_lt hd (hd.trans hc)]
      exact ih d hd (hd.trans hc)
  root_lt := by
    have hren := renumbered h hroots
    rcases lt_or_ge root 2 with hr | hr
    · have hmap := hren.map_terminal root hr
      exact (hmap.trans_lt hr).trans_le (le_add_left 2 _)
    · exact (hren.map_node root hr (number_root h hroots root mem_cons_self)).2.1

/-! ## Sampling -/

lemma crExactSkip_eq {limbs : ℕ} (k level : ℕ) (hr : Stores limbs r x) (bits : ℕ → Bool) :
    Stores limbs (crExactSkip limbs k level r bits).1 (x / 2 ^ k) ∧
      (crExactSkip limbs k level r bits).2 = DTree.spread level k x bits := by
  induction k generalizing level r x bits with
  | zero =>
    refine ⟨by simpa [crExactSkip] using hr, ?_⟩
    funext i
    rw [DTree.spread_outside bits (by omega)]
    rfl
  | succ k ih =>
    have hbit : (r.getD 0 0 &&& 1#64 != 0) = x.testBit 0 := by
      have hlow := bvBit_eq r 0
      rw [hr.value] at hlow
      rw [← hlow, bvBit]
      simp
    obtain ⟨hstores, hbits⟩ := ih (level + 1) (hr.bnShr 1) (update bits level (x.testBit 0))
    rw [crExactSkip, hbit]
    refine ⟨?_, ?_⟩
    · rw [pow_succ', ← Nat.div_div_eq_div_mul]
      exact hstores
    · rw [hbits, DTree.spread_succ, pow_one]

section Valid

variable {e : CrExact} (h : e.Valid) {n : ℕ} (hn : n < e.nodes)

include h hn

lemma CrExact.Valid.top_tree : (e.nodeTable.tree n).top e.levels = e.level n :=
  h.ordered.top_tree hn

lemma CrExact.Valid.tree_node (h2 : 2 ≤ n) : e.nodeTable.tree n =
    .node (e.level n) (e.nodeTable.tree (e.lo n)) (e.nodeTable.tree (e.hi n)) :=
  h.ordered.tree_node h2 hn

/-- The words of the number of models below `n`, over the levels from `level` on. -/
lemma CrExact.Valid.stores_size {level : ℕ} (hlevel : level ≤ e.level n) :
    Stores e.limbs (bnShl (e.count n) (e.level n - level) e.limbs)
      ((e.nodeTable.tree n).size e.levels level) := by
  have htop := h.top_tree hn
  have hfit := lt_limbs (DTree.size_le (h.ordered.tree_ordered n hn) (hlevel.trans htop.ge))
  rw [← h.limbs_eq] at hfit
  rw [DTree.size, htop] at hfit ⊢
  exact (h.count_exact n hn).bnShl hfit

end Valid

/-- **The walk over words is the walk of the tree.**  Each round goes at least one level down. -/
lemma CrExact.Valid.loop_eq {e : CrExact} (h : e.Valid) : ∀ (fuel : ℕ) {n level x : ℕ} {r : Words}
    (bits : ℕ → Bool), n < e.nodes → level ≤ e.level n → e.levels < fuel + level →
    Stores e.limbs r x → x < (e.nodeTable.tree n).size e.levels level →
    crExactLoop e fuel n level r bits = some ((e.nodeTable.tree n).walk e.levels level x bits) := by
  intro fuel
  induction fuel with
  | zero =>
    intro n level x r bits hn hlevel hfuel
    have hle : e.level n ≤ e.levels := h.ordered.level_le hn
    omega
  | succ fuel ih =>
    intro n level x r bits hn hlevel hfuel hr hx
    obtain ⟨hskip, hbits⟩ := crExactSkip_eq (e.level n - level) level hr bits
    rw [crExactLoop]
    generalize crExactSkip e.limbs (e.level n - level) level r bits = skipped at hskip hbits
    obtain ⟨r', bits'⟩ := skipped
    dsimp only at hskip hbits ⊢
    rw [max_eq_right hlevel, hbits]
    by_cases hn2 : n < 2
    · have hleaf : e.level n = e.levels := h.ordered.level_leaf n hn2
      rw [if_pos hn2]
      rw [Table.tree_leaf _ hn2] at hx ⊢
      have hone : n = 1 := by
        by_contra hne
        obtain rfl : n = 0 := by omega
        simp [DTree.size, DTree.count] at hx
      rw [if_neg (by simpa using hone), hleaf]
      rfl
    · have hge : 2 ≤ n := by omega
      obtain ⟨hlo, hhi⟩ := h.ordered.child_lt n hge hn
      obtain ⟨hllo, hlhi⟩ := h.ordered.level_lt n hge hn
      have hw : Stores e.limbs (bnShl (e.count (e.lo n)) (e.level (e.lo n) - e.level n - 1) e.limbs)
          ((e.nodeTable.tree (e.lo n)).size e.levels (e.level n + 1)) := by
        rw [Nat.sub_sub]
        exact h.stores_size (hlo.trans hn) hllo
      rw [h.tree_node hn hge] at hx ⊢
      have hq := DTree.div_lt_sizes hx
      rw [if_neg hn2, DTree.walk]
      by_cases hlow : x / 2 ^ (e.level n - level) <
          (e.nodeTable.tree (e.lo n)).size e.levels (e.level n + 1)
      · rw [if_pos ((hskip.bnCmp_lt hw).2 hlow), if_pos hlow]
        exact ih _ (hlo.trans hn) hllo (by omega) hskip hlow
      · rw [if_neg (mt (hskip.bnCmp_lt hw).1 hlow), if_neg hlow]
        refine ih _ (hhi.trans hn) hlhi (by omega) (hskip.bnSub hw (Nat.le_of_not_lt hlow)) ?_
        exact Nat.sub_lt_left_of_lt_add (Nat.le_of_not_lt hlow) hq

namespace CrExact.Valid

variable {e : CrExact} (h : e.Valid)

include h

lemma stores_total : Stores e.limbs (crExactTotal e) ((e.nodeTable.tree e.root).size e.levels 0) :=
  h.stores_size h.root_lt (zero_le _)

lemma root_ordered : (e.nodeTable.tree e.root).Ordered e.levels :=
  h.ordered.tree_ordered _ h.root_lt

lemma walk_eq (hr : Stores e.limbs r x)
    (hx : x < (e.nodeTable.tree e.root).size e.levels 0) (bits : ℕ → Bool) :
    crExactWalk e r bits = some ((e.nodeTable.tree e.root).walk e.levels 0 x bits) :=
  h.loop_eq _ bits h.root_lt (zero_le _) (lt_succ_self _) hr hx

lemma ncard_models (hc : c < e.nodes) :
    {a : Fin e.levels → Bool | e.eval (DTree.extend a) c = true}.ncard =
      wordsNat (e.count c) * 2 ^ e.level c := by
  have hcard := DTree.ncard_models (h.ordered.tree_ordered c hc)
  rw [DTree.size, h.top_tree hc, ← (h.count_exact c hc).value, Nat.sub_zero] at hcard
  exact hcard

/-- The walk goes through the models one by one. -/
lemma bijOn_walk (bits : ℕ → Bool) :
    Set.BijOn (fun r => (crExactWalk e r bits).map fun b (i : Fin e.levels) => b i)
      {r | r.length = e.limbs ∧ wordsNat r < wordsNat (crExactTotal e)}
      (some '' {a : Fin e.levels → Bool | e.eval (DTree.extend a) e.root = true}) := by
  have hbij := DTree.bijOn_walk h.root_ordered bits
  rw [h.stores_total.value]
  have hwalk : ∀ r : Words, r.length = e.limbs →
      wordsNat r < (e.nodeTable.tree e.root).size e.levels 0 →
      (crExactWalk e r bits).map (fun b (i : Fin e.levels) => b i) =
        some fun i : Fin e.levels => (e.nodeTable.tree e.root).walk e.levels 0 (wordsNat r) bits i := by
    intro r hlen hlt
    rw [h.walk_eq ⟨hlen, rfl⟩ hlt bits]
    rfl
  refine ⟨?_, ?_, ?_⟩
  · rintro r ⟨hlen, hlt⟩
    simp only [hwalk r hlen hlt]
    exact ⟨_, hbij.mapsTo hlt, rfl⟩
  · rintro r ⟨hlen, hlt⟩ r' ⟨hlen', hlt'⟩ heq
    simp only [hwalk r hlen hlt, hwalk r' hlen' hlt', Option.some.injEq] at heq
    exact wordsNat_injective (hlen.trans hlen'.symm) (hbij.injOn hlt hlt' heq)
  · rintro _ ⟨a, ha, rfl⟩
    obtain ⟨x, hx, rfl⟩ := hbij.surjOn ha
    obtain ⟨r, hr⟩ := exists_stores (lt_trans hx h.stores_total.lt)
    have hlt : wordsNat r < (e.nodeTable.tree e.root).size e.levels 0 := hr.value.symm ▸ hx
    refine ⟨r, ⟨hr.length, hlt⟩, ?_⟩
    simp only [hwalk r hr.length hlt, hr.value]

lemma sample_eq {draw : ℕ → BitVec 32} {attempts cursor cursor' : ℕ}
    (hdraw : bnUniform draw (crExactTotal e) e.limbs attempts cursor = some (r, cursor'))
    (hr : Stores e.limbs r x) (hx : x < (e.nodeTable.tree e.root).size e.levels 0)
    (bits : ℕ → Bool) : crExactSample e draw attempts cursor bits =
      some ((e.nodeTable.tree e.root).walk e.levels 0 x bits, cursor') := by
  rw [crExactSample, hdraw]
  simp [h.walk_eq hr hx bits]

/-- A sample is a model. -/
lemma sample_spec {draw : ℕ → BitVec 32} {attempts cursor cursor' : ℕ}
    (hdraw : bnUniform draw (crExactTotal e) e.limbs attempts cursor = some (r, cursor'))
    (bits : ℕ → Bool) : ∃ b, crExactSample e draw attempts cursor bits = some (b, cursor') ∧
      e.eval b e.root = true := by
  obtain ⟨x, hx, hr⟩ := bnUniform_spec h.stores_total hdraw
  refine ⟨_, h.sample_eq hdraw hr hx bits, ?_⟩
  exact DTree.eval_walk h.root_ordered (zero_le _) hx

/-- The draws of a single attempt that lead to a given model are those of its rank. -/
lemma sample_eq_iff (draw : ℕ → BitVec 32) (bits : ℕ → Bool) {a : Fin e.levels → Bool}
    (ha : e.eval (DTree.extend a) e.root = true) :
    (crExactSample e draw 1 0 bits).map (fun s (i : Fin e.levels) => s.1 i) = some a ↔
      wordsNat (bnAttempt draw 0 (bnBits (crExactTotal e) e.limbs) e.limbs) =
        (e.nodeTable.tree e.root).rank e.levels 0 (DTree.extend a) := by
  have hrank := DTree.rank_lt h.root_ordered (zero_le _) ha
  have hlen := (bnAttempt_spec draw 0 (bnBits_le (crExactTotal e) e.limbs)).1
  have hout : Stores e.limbs _ _ := ⟨hlen, rfl⟩
  have hcmp := hout.bnCmp_lt h.stores_total
  by_cases hlt : wordsNat (bnAttempt draw 0 (bnBits (crExactTotal e) e.limbs) e.limbs) <
      (e.nodeTable.tree e.root).size e.levels 0
  · have hdraw : bnUniform draw (crExactTotal e) e.limbs 1 0 = some (_, _) := if_pos (hcmp.2 hlt)
    rw [h.sample_eq hdraw hout hlt bits, Option.map_some, Option.some.injEq]
    exact DTree.walk_eq_iff h.root_ordered bits hlt ha
  · have hnone : bnUniform draw (crExactTotal e) e.limbs 1 0 = none := if_neg (mt hcmp.1 hlt)
    have hsample : crExactSample e draw 1 0 bits = none := by rw [crExactSample, hnone]; rfl
    rw [hsample]
    refine iff_of_false (by simp) fun heq => hlt ?_
    rw [heq]
    exact hrank

end CrExact.Valid

/-! ## Every run of the manager -/

/-- **Exact models.**  Let `m` be reached from a fresh manager by any sequence of calls.  The compact
model of a root evaluates as the root does.  The count of every compact node fits its limbs and is
the number of its models over the levels from its own on: with the levels above, which double it
each, it is the number of all its models.  For the root that number is `crExactTotal`, the bound of
the integer `cr_exact_sample` draws; the walk takes the integers below it one to one to the models of
the root, so a drawn integer gives a model, and all models come from equally many draws. -/
theorem exact_model_sampled {quantOf : ℕ → ℕ → Bool} {levels limit root : ℕ}
    {projections : List ℕ} (hm : ReflTransGen (BddStep quantOf) (crBddInit levels limit) m)
    (hroots : ∀ r ∈ root :: projections, r < m.count) (bits : ℕ → Bool) :
    let e := crExactBuild m root projections
    let models := {a : Fin levels → Bool | m.eval (DTree.extend a) root = true}
    (∀ env, e.eval env e.root = m.eval env root) ∧
    (∀ c < e.nodes, (e.count c).length = e.limbs ∧ wordsNat (e.count c) * 2 ^ e.level c =
      {a : Fin levels → Bool | e.eval (DTree.extend a) c = true}.ncard) ∧
    (crExactTotal e).length = e.limbs ∧
    wordsNat (crExactTotal e) = wordsNat (e.count e.root) * 2 ^ e.level e.root ∧
    wordsNat (crExactTotal e) = models.ncard ∧
    Set.BijOn (fun r => (crExactWalk e r bits).map fun b (i : Fin levels) => b i)
      {r | r.length = e.limbs ∧ wordsNat r < wordsNat (crExactTotal e)} (some '' models) ∧
    (∀ draw attempts cursor r cursor',
      bnUniform draw (crExactTotal e) e.limbs attempts cursor = some (r, cursor') →
      ∃ b, crExactSample e draw attempts cursor bits = some (b, cursor') ∧ m.eval b root = true) ∧
    (∀ a ∈ models, ∀ a' ∈ models,
      {c : Fin ((bnBits (crExactTotal e) e.limbs + 31) / 32) → BitVec 32 |
        (crExactSample e (drawsOf c) 1 0 bits).map (fun s (i : Fin levels) => s.1 i) = some a}.ncard =
      {c : Fin ((bnBits (crExactTotal e) e.limbs + 31) / 32) → BitVec 32 |
        (crExactSample e (drawsOf c) 1 0 bits).map (fun s (i : Fin levels) => s.1 i) =
          some a'}.ncard) := by
  intro e models
  obtain ⟨hwf, hext⟩ := BddStep.run_wf_extends hm (crBddInit_wf quantOf levels limit)
  obtain rfl : m.levels = levels := hext.levels
  have hred := hwf.toReduced
  have hvalid : e.Valid := crExactBuild_valid hred hroots
  have heval : ∀ env, e.eval env e.root = m.eval env root := eval_crExactRoot hred hroots
  have hmodels : models = {a : Fin e.levels → Bool | e.eval (DTree.extend a) e.root = true} := by
    simp only [heval]
    rfl
  have htotal : wordsNat (crExactTotal e) = wordsNat (e.count e.root) * 2 ^ e.level e.root := by
    rw [hvalid.stores_total.value, DTree.size, hvalid.top_tree hvalid.root_lt,
      (hvalid.count_exact _ hvalid.root_lt).value, Nat.sub_zero]
  refine ⟨heval, fun c hc => ⟨(hvalid.count_exact c hc).length, (hvalid.ncard_models hc).symm⟩,
    hvalid.stores_total.length, htotal, ?_, ?_, ?_, ?_⟩
  · rw [hmodels, htotal]
    exact (hvalid.ncard_models hvalid.root_lt).symm
  · rw [hmodels]
    exact hvalid.bijOn_walk bits
  · intro draw attempts cursor r cursor' hdraw
    obtain ⟨b, hsample, hb⟩ := hvalid.sample_spec hdraw bits
    exact ⟨b, hsample, (heval b).symm.trans hb⟩
  · rw [hmodels]
    intro a ha a' ha'
    have hbound : (e.nodeTable.tree e.root).size e.levels 0 < 2 ^ bnBits (crExactTotal e) e.limbs := by
      rw [bnBits, take_of_length_le hvalid.stores_total.length.le, ← hvalid.stores_total.value]
      exact wordsNat_lt_topBit _
    have hrank : ∀ a ∈ {a : Fin e.levels → Bool | e.eval (DTree.extend a) e.root = true},
        (e.nodeTable.tree e.root).rank e.levels 0 (DTree.extend a) <
          2 ^ bnBits (crExactTotal e) e.limbs := fun a ha =>
      (DTree.rank_lt hvalid.root_ordered (zero_le _) ha).trans hbound
    have hcard := ncard_bnAttempt (bnBits_le (crExactTotal e) e.limbs) (hrank a ha) (hrank a' ha')
    have hiff := fun (a : Fin e.levels → Bool) (ha : e.eval (DTree.extend a) e.root = true)
      (c : Fin ((bnBits (crExactTotal e) e.limbs + 31) / 32) → BitVec 32) =>
        hvalid.sample_eq_iff (drawsOf c) bits ha
    simp only [← hiff a ha, ← hiff a' ha'] at hcard
    exact hcard

/-- A manager of two levels after the diagram of the second variable is built. -/
def secondBit : ℕ × CrBdd := crBddFromAig (crAigInit 2 100) 4 (crBddInit 2 100)

lemma secondBit_run : ReflTransGen (BddStep fun _ _ => false) (crBddInit 2 100) secondBit.2 := by
  refine .single (.fromAig (fun n h1 h2 => ?_) (by decide +kernel) (by decide +kernel))
  have h1' : 2 < n := h1
  have h2' : n < 3 := h2
  omega

theorem exact_model_sampled_secondBit :
    (crExactTotal (crExactBuild secondBit.2 secondBit.1 [])) = [2, 0] ∧
      {a : Fin 2 → Bool | secondBit.2.eval (DTree.extend a) secondBit.1 = true}.ncard = 2 := by
  have htotal : crExactTotal (crExactBuild secondBit.2 secondBit.1 []) = [2, 0] := by decide +kernel
  have hroots : ∀ r ∈ [secondBit.1], r < secondBit.2.count := by decide +kernel
  obtain ⟨-, -, -, -, hcard, -⟩ := exact_model_sampled secondBit_run hroots fun _ => false
  rw [htotal] at hcard
  exact ⟨htotal, hcard.symm⟩

/-- The count stored for the root leaves out the level skipped above it: it is one, but two
assignments satisfy the root. -/
theorem exact_root_count_skips_level :
    secondBit.2.overflow = 0 ∧
      wordsNat ((crExactBuild secondBit.2 secondBit.1 []).count
        (crExactBuild secondBit.2 secondBit.1 []).root) ≠
      {a : Fin 2 → Bool | secondBit.2.eval (DTree.extend a) secondBit.1 = true}.ncard := by
  have hroots : ∀ r ∈ [secondBit.1], r < secondBit.2.count := by decide +kernel
  obtain ⟨hwf, -⟩ := BddStep.run_wf_extends secondBit_run (crBddInit_wf _ 2 100)
  have hvalid := crExactBuild_valid hwf.toReduced hroots
  have hcard := hvalid.ncard_models hvalid.root_lt
  simp only [eval_crExactRoot hwf.toReduced hroots] at hcard
  have hcount : (crExactBuild secondBit.2 secondBit.1 []).count
      (crExactBuild secondBit.2 secondBit.1 []).root = [1, 0] := by decide +kernel
  have hlevel : (crExactBuild secondBit.2 secondBit.1 []).level
      (crExactBuild secondBit.2 secondBit.1 []).root = 1 := by decide +kernel
  rw [hcount, hlevel] at hcard
  refine ⟨by decide +kernel, fun heq => ?_⟩
  rw [hcount] at heq
  have hone : wordsNat [1, 0] = 1 := rfl
  rw [hone] at heq hcard
  exact absurd (heq.trans hcard) (by decide)

end Lapligence.Constraints
