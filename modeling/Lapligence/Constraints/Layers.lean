import Lapligence.Constraints.Orders

/-!
# The layers of a component

`cr_plan_build` (`constraints/solve.c`) splits the variables of a component into layers that are
drawn one after the other: the randc variables, one layer each; the variables that the items of a
dist with random items read, in the first of its two passes; and then the variables by their
solve-before heights, the highest first.  These are the base sets.  A dist that applies
unconditionally is drawn by item, in a layer of its own at the start of the base set of its latest
variables.

The sampler stores layer numbers in 8 bits (`cr_layout_t`), so that a plan of more than 256 layers
is not what is drawn.
-/

namespace Lapligence.Constraints

open LongestPaths Function List Bool

/-! ## The model -/

/-- What `cr_plan_build` reads of a dist in the component's cone: how many items have a nonzero
weight, whether it has no guard or a known true one, and the variables (`cr_support`) of its
expression and of its node.  Dists with pending items are left out. -/
structure PlanDist where
  items : ℕ
  unconditional : Bool
  exprSupport : List ℕ
  support : List ℕ

/-- What `cr_plan_build` reads: the variables of the component, which are randc, the heights if there
are live orders, the variables drawn first for a dist with random items, the number of dists of the
problem, and the dists of the component. -/
structure PlanInput where
  vars : List ℕ
  cyclic : ℕ → Bool
  height : Option (ℕ → ℕ)
  pre : ℕ → Bool
  distCount : ℕ
  dists : List PlanDist

/-- `cr_plan_t`, without the nodes of the dists.  `layer` is absent in a plain plan; `cyclic` and
`pick` give the randc variable and the dist of a layer. -/
structure CrPlan where
  layer : Option (ℕ → ℕ) := none
  layerCount : ℕ := 1
  cyclic : ℕ → Option ℕ := fun _ => none
  pick : ℕ → Option ℕ := fun _ => none
  distLayer : List ℕ := []
  selectors : ℕ := 0
  layered : Bool := false

namespace PlanInput

variable (inp : PlanInput)

/-- Some variable of the component is drawn first. -/
def hasPre : Bool := inp.vars.any inp.pre

/-- The plain uniform measure needs no layers. -/
def plain : Bool :=
  inp.height.isNone && decide (inp.distCount = 0) && inp.vars.all (fun v => !inp.cyclic v) &&
    !inp.hasPre

/-! ### Base sets -/

/-- The loop that numbers the randc variables: their layers, and how many there are. -/
def cyclicLayers : (ℕ → ℕ) × ℕ :=
  inp.vars.foldl (fun s v => if inp.cyclic v then (update s.1 v s.2, s.2 + 1) else s)
    (fun _ => 0, 0)

/-- The distinct heights of the other variables, in order of appearance. -/
def distinctHeights (height : ℕ → ℕ) : List ℕ :=
  inp.vars.foldl (fun distinct v =>
    if inp.cyclic v then distinct
    else if height v ∈ distinct then distinct else distinct ++ [height v]) []

/-- The height of a variable among the distinct ones. -/
def rank (v : ℕ) : ℕ :=
  match inp.height with
  | none => 0
  | some height =>
    if inp.cyclic v then 0 else (inp.distinctHeights height).countP fun h => h < height v

def maxHeight : ℕ :=
  inp.vars.foldl (fun top v => if inp.cyclic v then top else max top (inp.rank v)) 0

/-- The number of the base set of a variable, 0 for one of another component. -/
def baseLayer (v : ℕ) : ℕ :=
  if v ∉ inp.vars then 0
  else if inp.cyclic v then inp.cyclicLayers.1 v
  else if inp.hasPre && inp.pre v then inp.cyclicLayers.2
  else inp.cyclicLayers.2 + inp.hasPre.toNat + inp.maxHeight - inp.rank v

def baseCount : ℕ := inp.cyclicLayers.2 + inp.hasPre.toNat + inp.maxHeight + 1

/-! ### Dists drawn by item -/

/-- `claim` and `dist_base`: the dist that draws a variable by item, and the base set of a dist.  The
claims of variables of other components are never read as free. -/
structure Claims where
  claim : ℕ → Option ℕ
  distBase : List (Option ℕ)
  picks : ℕ

def firstClaims : Claims where
  claim v := if v ∈ inp.vars then none else some 0
  distBase := []
  picks := 0

/-- The latest base set of the variables of a dist's expression that are not randc. -/
def latest (d : PlanDist) : ℕ :=
  (d.exprSupport.filter fun v => !inp.cyclic v).foldl (fun top v => max top (inp.baseLayer v)) 0

/-- The dist may claim the variable: it is in the latest set and not claimed. -/
def claimable (d : PlanDist) (claim : ℕ → Option ℕ) (v : ℕ) : Bool :=
  !inp.cyclic v && decide (inp.baseLayer v = inp.latest d) && decide (claim v = none)

/-- The loop over the dists: an unconditional dist claims what is free of its latest base set.  Layer
numbers are 8-bit, so there are at most 255 of them. -/
def claimDist (c : Claims) (d : PlanDist) : Claims :=
  if d.unconditional = false ∨ d.items = 0 ∨ 255 ≤ inp.baseCount + c.picks then
    { c with distBase := c.distBase ++ [none] }
  else if d.exprSupport.any (inp.claimable d c.claim) then
    { claim := fun v =>
        if v ∈ d.exprSupport ∧ inp.claimable d c.claim v then some c.distBase.length else c.claim v
      distBase := c.distBase ++ [some (inp.latest d)]
      picks := c.picks + 1 }
  else { c with distBase := c.distBase ++ [none] }

def claims : Claims := inp.dists.foldl inp.claimDist inp.firstClaims

/-! ### Final layers -/

/-- `dist_layer`, `base_id` and `next`. -/
structure Numbering where
  distLayer : ℕ → Option ℕ
  baseId : ℕ → Option ℕ
  next : ℕ

/-- The base set has a variable that no dist draws by item. -/
def baseUsed (b : ℕ) : Bool :=
  inp.vars.any fun v => decide (inp.claims.claim v = none) && decide (inp.baseLayer v = b)

/-- A dist of base set `b` takes the next layer. -/
def numberDist (b : ℕ) (s : Numbering) (k : ℕ) : Numbering :=
  if inp.claims.distBase[k]? = some (some b) then
    { s with distLayer := update s.distLayer k (some s.next), next := s.next + 1 }
  else s

/-- The layers of base set `b`: its dists in order, then its other variables. -/
def numberBase (s : Numbering) (b : ℕ) : Numbering :=
  let s := (range inp.claims.distBase.length).foldl (inp.numberDist b) s
  if inp.baseUsed b then
    { s with baseId := update s.baseId b (some s.next), next := s.next + 1 }
  else s

def numbering : Numbering :=
  (range inp.baseCount).foldl inp.numberBase ⟨fun _ => none, fun _ => none, 0⟩

/-- The layer of a variable; `LLG_CR_NONE` where the source has no layer for it. -/
def finalLayer (v : ℕ) : ℕ :=
  match inp.claims.claim v with
  | some k => (inp.numbering.distLayer k).getD (2 ^ 32 - 1)
  | none => (inp.numbering.baseId (inp.baseLayer v)).getD (2 ^ 32 - 1)

/-- The layer of dist `k`: its own when it is drawn by item, else that of its latest variable. -/
def finalDistLayer (k : ℕ) (d : PlanDist) : ℕ :=
  match inp.numbering.distLayer k with
  | some layer => layer
  | none => (d.support.map fun v => if v ∈ inp.vars then inp.finalLayer v else 0).foldl max 0

end PlanInput

/-- `cr_plan_build`. -/
def crPlanBuild (inp : PlanInput) : CrPlan :=
  if inp.plain then {}
  else
    let layerCount := if inp.numbering.next = 0 then 1 else inp.numbering.next
    { layer := some fun v => if v ∈ inp.vars then inp.finalLayer v else 0
      layerCount
      cyclic := fun l => (inp.vars.filter fun v => inp.cyclic v && inp.finalLayer v == l).getLast?
      pick := fun l => ((range inp.dists.length).filter fun k =>
        inp.numbering.distLayer k == some l).getLast?
      distLayer := inp.dists.mapIdx inp.finalDistLayer
      selectors := (inp.dists.map fun d => d.items + 1).sum
      layered := decide (1 < layerCount) || decide (inp.dists ≠ []) ||
        decide (0 < inp.cyclicLayers.2) }

/-- The layer in which the sampler draws a variable: `cr_layout_t` stores it as a `uint8_t`. -/
def drawnLayer (plan : CrPlan) (v : ℕ) : ℕ := (plan.layer.getD fun _ => 0) v % 2 ^ 8

/-! ## Base sets are ordered -/

namespace PlanInput

variable {inp : PlanInput} {v : ℕ}
variable {u : ℕ} {height : ℕ → ℕ}

/-- Each randc variable has a base set of its own, before all others. -/
lemma cyclicLayers_lt (hv : v ∈ inp.vars) (hcyclic : inp.cyclic v = true) :
    inp.cyclicLayers.1 v < inp.cyclicLayers.2 := by
  have hfold : ∀ (vs : List ℕ) (s : (ℕ → ℕ) × ℕ) (seen : ℕ → Prop), (∀ v, seen v → s.1 v < s.2) →
      ∀ v, seen v ∨ (v ∈ vs ∧ inp.cyclic v = true) →
        (vs.foldl (fun s v => if inp.cyclic v then (update s.1 v s.2, s.2 + 1) else s)
          s).1 v <
        (vs.foldl (fun s v => if inp.cyclic v then (update s.1 v s.2, s.2 + 1) else s)
          s).2 := by
    intro vs
    induction vs with
    | nil =>
      intro s seen hseen v hv
      exact hseen v (hv.resolve_right fun h => absurd h.1 not_mem_nil)
    | cons x vs ih =>
      intro s seen hseen v hv
      rw [foldl_cons]
      split_ifs with hx
      · refine ih _ (fun v => seen v ∨ v = x) (fun v hv => ?_) v ?_
        · rcases eq_or_ne v x with rfl | hne
          · simp
          · have := hseen v (hv.resolve_right hne)
            simp only [update_of_ne hne]
            omega
        · rcases hv with hv | ⟨hv, hc⟩
          · exact Or.inl (Or.inl hv)
          · rcases mem_cons.1 hv with rfl | hv
            · exact Or.inl (Or.inr rfl)
            · exact Or.inr ⟨hv, hc⟩
      · refine ih s seen hseen v (hv.imp_right fun h => ⟨?_, h.2⟩)
        exact (mem_cons.1 h.1).resolve_left fun heq => hx (heq ▸ h.2)
  exact hfold inp.vars _ (fun _ => False) (fun _ h => h.elim) v (Or.inr ⟨hv, hcyclic⟩)

lemma rank_le_maxHeight (hv : v ∈ inp.vars) (hcyclic : inp.cyclic v = false) :
    inp.rank v ≤ inp.maxHeight := by
  have hfold : ∀ (vs : List ℕ) (top : ℕ),
      top ≤ vs.foldl (fun top v => if inp.cyclic v then top else max top (inp.rank v)) top ∧
        ∀ v ∈ vs, inp.cyclic v = false → inp.rank v ≤
          vs.foldl (fun top v => if inp.cyclic v then top else max top (inp.rank v)) top := by
    intro vs
    induction vs with
    | nil => exact fun top => ⟨le_rfl, fun v hv => absurd hv not_mem_nil⟩
    | cons x vs ih =>
      intro top
      rw [foldl_cons]
      obtain ⟨htop, hvs⟩ := ih (if inp.cyclic x then top else max top (inp.rank x))
      refine ⟨?_, fun v hv hc => ?_⟩
      · split_ifs at htop ⊢
        · exact htop
        · exact (le_max_left _ _).trans htop
      · rcases mem_cons.1 hv with rfl | hv
        · rw [hc] at htop ⊢
          exact (le_max_right _ _).trans htop
        · exact hvs v hv hc
  exact (hfold inp.vars 0).2 v hv hcyclic

lemma mem_distinctHeights (height : ℕ → ℕ) (hv : v ∈ inp.vars) (hcyclic : inp.cyclic v = false) :
    height v ∈ inp.distinctHeights height := by
  have hfold : ∀ (vs : List ℕ) (distinct : List ℕ) (h : ℕ),
      (h ∈ distinct ∨ ∃ v ∈ vs, inp.cyclic v = false ∧ height v = h) →
        h ∈ vs.foldl (fun distinct v => if inp.cyclic v then distinct
          else if height v ∈ distinct then distinct else distinct ++ [height v]) distinct := by
    intro vs
    induction vs with
    | nil => exact fun distinct h hh => hh.resolve_right (by simp)
    | cons x vs ih =>
      intro distinct h hh
      rw [foldl_cons]
      refine ih _ h ?_
      rcases hh with hh | ⟨v, hv, hc, rfl⟩
      · left
        split_ifs
        · exact hh
        · exact hh
        · exact mem_append_left _ hh
      · rcases mem_cons.1 hv with rfl | hv
        · left
          rw [if_neg (by simp [hc])]
          split_ifs with hmem
          · exact hmem
          · exact mem_append_right _ (mem_singleton_self _)
        · exact Or.inr ⟨v, hv, hc, rfl⟩
  exact hfold inp.vars [] (height v) (Or.inr ⟨v, hv, hcyclic, rfl⟩)

/-- A higher variable has a higher rank. -/
lemma rank_lt (hheight : inp.height = some height) {v : ℕ} (hu : u ∈ inp.vars)
    (hcu : inp.cyclic u = false) (hcv : inp.cyclic v = false) (hlt : height u < height v) :
    inp.rank u < inp.rank v := by
  have hmem := mem_distinctHeights height hu hcu
  simp only [rank, hheight, hcu, hcv, false_eq_true, if_false]
  obtain ⟨before, after, hsplit⟩ := append_of_mem hmem
  have hmono : ∀ l : List ℕ, l.countP (fun h => h < height u) ≤ l.countP fun h => h < height v :=
    fun l => countP_mono_left fun h _ hh => by
      rw [decide_eq_true_eq] at hh ⊢
      exact hh.trans hlt
  have h1 := hmono before
  have h2 := hmono after
  rw [hsplit, countP_append, countP_append, countP_cons, countP_cons]
  simp only [lt_irrefl, decide_false, hlt, decide_true, false_eq_true, if_false, if_true]
  omega

lemma le_baseLayer (hv : v ∈ inp.vars) (hcyclic : inp.cyclic v = false) :
    inp.cyclicLayers.2 ≤ inp.baseLayer v := by
  have hrank := rank_le_maxHeight hv hcyclic
  rw [baseLayer, if_neg (not_not.2 hv), hcyclic]
  simp only [Bool.false_eq_true, if_false]
  split_ifs
  · exact le_rfl
  · omega

lemma baseLayer_lt (hv : v ∈ inp.vars) : inp.baseLayer v < inp.baseCount := by
  rw [baseLayer, if_neg (not_not.2 hv), baseCount]
  split_ifs with hcyclic
  · have := cyclicLayers_lt hv hcyclic
    omega
  · omega
  · omega

/-- An order between variables of the component puts them into base sets in this order, unless the
later one is drawn first for a dist with random items. -/
lemma baseLayer_lt_of_height (hheight : inp.height = some height) {v : ℕ}
    (hu : u ∈ inp.vars) (hv : v ∈ inp.vars) (hcu : inp.cyclic u = false)
    (hcv : inp.cyclic v = false) (hlt : height v < height u) (hpre : inp.pre v = false) :
    inp.baseLayer u < inp.baseLayer v := by
  have hrank := rank_lt hheight hv hcv hcu hlt
  have hmax := rank_le_maxHeight hu hcu
  simp only [baseLayer, hu, hv, not_true_eq_false, if_false, hcu, hcv, hpre, Bool.and_false,
    false_eq_true]
  split_ifs with hpu
  · rw [Bool.and_eq_true] at hpu
    rw [hpu.1]
    simp only [toNat_true]
    omega
  · omega

/-! ## Numbering keeps the order of base sets -/

/-- A variable of the component is claimed by a dist of its own base set. -/
lemma distBase_of_claim (hv : v ∈ inp.vars) {k : ℕ} (hclaim : inp.claims.claim v = some k) :
    inp.claims.distBase[k]? = some (some (inp.baseLayer v)) := by
  have hstep : ∀ (c : Claims) (d : PlanDist),
      (∀ k, c.claim v = some k → c.distBase[k]? = some (some (inp.baseLayer v))) →
      ∀ k, (inp.claimDist c d).claim v = some k →
        (inp.claimDist c d).distBase[k]? = some (some (inp.baseLayer v)) := by
    intro c d hc k hk
    have hold : ∀ x, c.claim v = some k → (c.distBase ++ [x])[k]? = some (some (inp.baseLayer v)) := by
      intro x h
      have hget := hc k h
      rw [List.getElem?_append_left (List.getElem?_eq_some_iff.1 hget).1, hget]
    rw [claimDist] at hk ⊢
    split_ifs at hk ⊢ with hskip hany
    · exact hold none hk
    · dsimp only at hk ⊢
      split_ifs at hk with hnew
      · obtain rfl := Option.some.inj hk
        have hbase : inp.baseLayer v = inp.latest d := by
          have := hnew.2
          simp only [claimable, and_eq_true, decide_eq_true_eq] at this
          exact this.1.2
        simp [hbase]
      · exact hold _ hk
    · exact hold none hk
  have hfold : ∀ (ds : List PlanDist) (c : Claims),
      (∀ k, c.claim v = some k → c.distBase[k]? = some (some (inp.baseLayer v))) →
      ∀ k, (ds.foldl inp.claimDist c).claim v = some k →
        (ds.foldl inp.claimDist c).distBase[k]? = some (some (inp.baseLayer v)) := by
    intro ds
    induction ds with
    | nil => exact fun c hc => hc
    | cons d ds ih => exact fun c hc => ih _ (hstep c d hc)
  refine hfold inp.dists inp.firstClaims (fun k hk => ?_) k hclaim
  simp [firstClaims, hv] at hk

variable (inp)

/-- The numbering after the base sets below `b`. -/
def numberedBelow (b : ℕ) : Numbering :=
  (range b).foldl inp.numberBase ⟨fun _ => none, fun _ => none, 0⟩

lemma numberedBelow_succ (b : ℕ) :
    inp.numberedBelow (b + 1) = inp.numberBase (inp.numberedBelow b) b := by
  rw [numberedBelow, range_succ, foldl_append]
  rfl

/-- The dists of base set `b` get the layers from `s.next` on, and no other dist gets a new one. -/
lemma numberDists (b n : ℕ) (s : Numbering) :
    s.next ≤ ((range n).foldl (inp.numberDist b) s).next ∧
      ((range n).foldl (inp.numberDist b) s).baseId = s.baseId ∧
      ∀ k, if k < n ∧ inp.claims.distBase[k]? = some (some b) then
          ∃ l, ((range n).foldl (inp.numberDist b) s).distLayer k = some l ∧
            s.next ≤ l ∧ l < ((range n).foldl (inp.numberDist b) s).next
        else ((range n).foldl (inp.numberDist b) s).distLayer k = s.distLayer k := by
  induction n with
  | zero => simp
  | succ n ih =>
    rw [range_succ, foldl_append, foldl_cons, foldl_nil]
    generalize (range n).foldl (inp.numberDist b) s = t at ih ⊢
    obtain ⟨hnext, hbase, hlayer⟩ := ih
    by_cases hn : inp.claims.distBase[n]? = some (some b)
    · simp only [numberDist, if_pos hn]
      refine ⟨by omega, hbase, fun k => ?_⟩
      rcases eq_or_ne k n with rfl | hk
      · rw [if_pos ⟨Nat.lt_succ_self _, hn⟩]
        exact ⟨t.next, by simp, hnext, Nat.lt_succ_self _⟩
      · have hiff : k < n + 1 ↔ k < n := by omega
        have := hlayer k
        simp only [hiff, update_of_ne hk]
        split_ifs at this ⊢
        · obtain ⟨l, hl, h1, h2⟩ := this
          exact ⟨l, hl, h1, by omega⟩
        · exact this
    · rw [numberDist, if_neg hn]
      refine ⟨hnext, hbase, fun k => ?_⟩
      have := hlayer k
      have hiff : (k < n + 1 ∧ inp.claims.distBase[k]? = some (some b)) ↔
          (k < n ∧ inp.claims.distBase[k]? = some (some b)) := by
        refine and_congr_left fun hk => ?_
        have : k ≠ n := fun h => hn (h ▸ hk)
        omega
      simpa only [hiff] using this

/-- The layers of a base set follow those of the sets before it. -/
lemma numberBase_spec (b : ℕ) (s : Numbering) :
    s.next ≤ (inp.numberBase s b).next ∧
      (∀ k, if inp.claims.distBase[k]? = some (some b) then
          ∃ l, (inp.numberBase s b).distLayer k = some l ∧ s.next ≤ l ∧ l < (inp.numberBase s b).next
        else (inp.numberBase s b).distLayer k = s.distLayer k) ∧
      (inp.baseUsed b = true → ∃ l, (inp.numberBase s b).baseId b = some l ∧ s.next ≤ l ∧
        l < (inp.numberBase s b).next) ∧
      ∀ c ≠ b, (inp.numberBase s b).baseId c = s.baseId c := by
  obtain ⟨hnext, hbase, hlayer⟩ := inp.numberDists b inp.claims.distBase.length s
  have hiff : ∀ k, (k < inp.claims.distBase.length ∧ inp.claims.distBase[k]? = some (some b)) ↔
      inp.claims.distBase[k]? = some (some b) := fun k =>
    and_iff_right_of_imp fun h => (List.getElem?_eq_some_iff.1 h).1
  simp only [hiff] at hlayer
  rw [numberBase]
  generalize (range inp.claims.distBase.length).foldl (inp.numberDist b) s = t
    at hnext hbase hlayer ⊢
  by_cases hused : inp.baseUsed b = true
  · rw [if_pos hused]
    refine ⟨by dsimp only; omega, fun k => ?_, fun _ => ⟨t.next, by simp, hnext, Nat.lt_succ_self _⟩,
      fun c hc => by rw [← hbase]; exact update_of_ne hc _ _⟩
    have := hlayer k
    split_ifs at this ⊢
    · obtain ⟨l, hl, h1, h2⟩ := this
      exact ⟨l, hl, h1, by dsimp only; omega⟩
    · exact this
  · rw [if_neg hused]
    exact ⟨hnext, hlayer, fun h => absurd h hused, fun c _ => by rw [hbase]⟩

lemma monotone_next : Monotone fun b => (inp.numberedBelow b).next :=
  monotone_nat_of_le_succ fun b => by
    rw [numberedBelow_succ]
    exact (inp.numberBase_spec b _).1

/-- The layers of base set `b` lie between the counts of layers before and after it. -/
lemma numberedBelow_spec (count b : ℕ) (hb : b < count) :
    (∀ k, inp.claims.distBase[k]? = some (some b) → ∃ l,
      (inp.numberedBelow count).distLayer k = some l ∧ (inp.numberedBelow b).next ≤ l ∧
        l < (inp.numberedBelow (b + 1)).next) ∧
      (inp.baseUsed b = true → ∃ l, (inp.numberedBelow count).baseId b = some l ∧
        (inp.numberedBelow b).next ≤ l ∧ l < (inp.numberedBelow (b + 1)).next) := by
  induction count with
  | zero => omega
  | succ count ih =>
    obtain ⟨-, hlayer, hbase, hother⟩ := inp.numberBase_spec count (inp.numberedBelow count)
    rw [← numberedBelow_succ] at hlayer hbase hother
    rcases Nat.lt_succ_iff_lt_or_eq.1 hb with hlt | rfl
    · obtain ⟨h1, h2⟩ := ih hlt
      refine ⟨fun k hk => ?_, fun hused => ?_⟩
      · have := hlayer k
        have hne : inp.claims.distBase[k]? ≠ some (some count) := by
          rw [hk]
          simpa using hlt.ne
        rw [if_neg hne] at this
        rw [this]
        exact h1 k hk
      · rw [hother b hlt.ne]
        exact h2 hused
    · refine ⟨fun k hk => ?_, hbase⟩
      have := hlayer k
      rwa [if_pos hk] at this

variable {inp}

/-- The layer of a variable lies among those of its base set. -/
lemma finalLayer_mem (hv : v ∈ inp.vars) :
    (inp.numberedBelow (inp.baseLayer v)).next ≤ inp.finalLayer v ∧
      inp.finalLayer v < (inp.numberedBelow (inp.baseLayer v + 1)).next := by
  obtain ⟨hdist, hbase⟩ := inp.numberedBelow_spec inp.baseCount _ (baseLayer_lt hv)
  have hnumbering : inp.numbering = inp.numberedBelow inp.baseCount := rfl
  rw [finalLayer, hnumbering]
  cases hclaim : inp.claims.claim v with
  | some k =>
    obtain ⟨l, hl, hmem⟩ := hdist k (distBase_of_claim hv hclaim)
    simpa only [hl, Option.getD_some] using hmem
  | none =>
    have hused : inp.baseUsed (inp.baseLayer v) = true :=
      any_eq_true.2 ⟨v, hv, by simp [hclaim]⟩
    obtain ⟨l, hl, hmem⟩ := hbase hused
    simpa only [hl, Option.getD_some] using hmem

lemma finalLayer_lt_next (hv : v ∈ inp.vars) : inp.finalLayer v < inp.numbering.next :=
  (finalLayer_mem hv).2.trans_le (inp.monotone_next (Nat.succ_le_of_lt (baseLayer_lt hv)))

/-- Variables of different base sets are in layers of the same order. -/
lemma finalLayer_lt_of_baseLayer {v : ℕ} (hu : u ∈ inp.vars) (hv : v ∈ inp.vars)
    (hlt : inp.baseLayer u < inp.baseLayer v) : inp.finalLayer u < inp.finalLayer v :=
  calc inp.finalLayer u < (inp.numberedBelow (inp.baseLayer u + 1)).next := (finalLayer_mem hu).2
    _ ≤ (inp.numberedBelow (inp.baseLayer v)).next := inp.monotone_next (Nat.succ_le_of_lt hlt)
    _ ≤ inp.finalLayer v := (finalLayer_mem hv).1

end PlanInput

/-- Up to 256 layers the sampler draws a variable in its layer. -/
lemma drawnLayer_crPlanBuild {inp : PlanInput} (hplan : inp.plain = false)
    (hcount : (crPlanBuild inp).layerCount ≤ 256) {v : ℕ} (hv : v ∈ inp.vars) :
    drawnLayer (crPlanBuild inp) v = inp.finalLayer v := by
  have hlt := PlanInput.finalLayer_lt_next hv
  rw [crPlanBuild, if_neg (by simp [hplan])] at hcount
  rw [drawnLayer, crPlanBuild, if_neg (by simp [hplan])]
  simp only [Option.getD_some, if_pos hv]
  refine Nat.mod_eq_of_lt (hlt.trans_le (le_trans ?_ hcount))
  dsimp only
  split_ifs <;> omega

/-! ## Orders and randc variables are respected -/

section Respected

variable {inp : PlanInput}

/-- A component without layers has no randc variable. -/
lemma plain_false_of_cyclic {v : ℕ} (hv : v ∈ inp.vars) (hcyclic : inp.cyclic v = true) :
    inp.plain = false := by
  have hall : inp.vars.all (fun v => !inp.cyclic v) = false :=
    all_eq_false.2 ⟨v, hv, by simp [hcyclic]⟩
  simp [PlanInput.plain, hall]

lemma plain_false_of_height (hheight : inp.height = some height) : inp.plain = false := by
  simp [PlanInput.plain, hheight]

lemma drawnLayer_cyclic_lt (hcount : (crPlanBuild inp).layerCount ≤ 256) {v : ℕ}
    (hu : u ∈ inp.vars) (hv : v ∈ inp.vars) (hcu : inp.cyclic u = true)
    (hcv : inp.cyclic v = false) :
    drawnLayer (crPlanBuild inp) u < drawnLayer (crPlanBuild inp) v := by
  have hplain := plain_false_of_cyclic hu hcu
  rw [drawnLayer_crPlanBuild hplain hcount hu, drawnLayer_crPlanBuild hplain hcount hv]
  refine PlanInput.finalLayer_lt_of_baseLayer hu hv ?_
  have hbase : inp.baseLayer u = inp.cyclicLayers.1 u := by
    simp [PlanInput.baseLayer, hu, hcu]
  rw [hbase]
  exact (PlanInput.cyclicLayers_lt hu hcu).trans_le (PlanInput.le_baseLayer hv hcv)

lemma drawnLayer_lt_of_height (hcount : (crPlanBuild inp).layerCount ≤ 256)
    (hheight : inp.height = some height) {v : ℕ} (hu : u ∈ inp.vars) (hv : v ∈ inp.vars)
    (hcu : inp.cyclic u = false) (hcv : inp.cyclic v = false) (hlt : height v < height u)
    (hpre : inp.pre v = false) :
    drawnLayer (crPlanBuild inp) u < drawnLayer (crPlanBuild inp) v := by
  have hplain := plain_false_of_height hheight
  rw [drawnLayer_crPlanBuild hplain hcount hu, drawnLayer_crPlanBuild hplain hcount hv]
  exact PlanInput.finalLayer_lt_of_baseLayer hu hv
    (PlanInput.baseLayer_lt_of_height hheight hu hv hcu hcv hlt hpre)

end Respected

/-- Orders that are not cyclic give every variable the length of its longest order path, and a cycle
is reported as long as heights fit 32 bits.  The layers of a component follow the orders and begin
with the randc variables, except that a variable an item of a dist reads is drawn first in the pass
made for it. -/
theorem solve_orders_respected (p : CrProblem) (orders : List CrOrder)
    (blockEnabled varActive : ℕ → Bool) (hcount : p.varCount < 2 ^ 32)
    (horders : ∀ o ∈ orders, o.before < p.varCount ∧ o.after < p.varCount) :
    ((p.varCount + 2) * orders.length + 1 < 2 ^ 32 →
        ((∃ item, crOrderHeights p orders blockEnabled varActive = .error item) ↔
          ∃ v, OrderedBefore (liveOrders p orders blockEnabled varActive) v v)) ∧
      ((∀ v, ¬OrderedBefore (liveOrders p orders blockEnabled varActive) v v) →
        ∃ height, crOrderHeights p orders blockEnabled varActive = .ok height ∧
          (∀ v, IsGreatest {n | WalkToSink
            (orderEdges (liveOrders p orders blockEnabled varActive)) v n}
            ((height.getD fun _ => 0) v)) ∧
          ∀ inp : PlanInput, inp.height = height → (∀ v, inp.cyclic v = (p.vars v).cyclic) →
            (crPlanBuild inp).layerCount ≤ 256 →
            (∀ o ∈ liveOrders p orders blockEnabled varActive, o.before ∈ inp.vars →
              o.after ∈ inp.vars → inp.pre o.after = false →
                drawnLayer (crPlanBuild inp) o.before < drawnLayer (crPlanBuild inp) o.after) ∧
            ∀ u ∈ inp.vars, ∀ v ∈ inp.vars, inp.cyclic u = true → inp.cyclic v = false →
              drawnLayer (crPlanBuild inp) u < drawnLayer (crPlanBuild inp) v) := by
  refine ⟨fun hsmall => ⟨fun herror => ?_, fun ⟨v, hv⟩ => crOrderHeights_of_cyclic hsmall hv⟩,
    fun hacyclic => ?_⟩
  · by_contra! hacyclic
    obtain ⟨item, herror⟩ := herror
    obtain ⟨height, hheight, -⟩ := crOrderHeights_of_acyclic hcount horders hacyclic
    rw [hheight] at herror
    cases herror
  · obtain ⟨height, hheight, hgreatest⟩ := crOrderHeights_of_acyclic hcount horders hacyclic
    refine ⟨height, hheight, hgreatest, fun inp hinp hcyclic hlayers =>
      ⟨fun o ho hbefore hafter hpre => ?_,
        fun u hu v hv hcu hcv => drawnLayer_cyclic_lt hlayers hu hv hcu hcv⟩⟩
    obtain ⟨-, hlive⟩ := mem_filter.1 ho
    simp only [crOrderLive, and_eq_true, not_eq_true'] at hlive
    -- a longest path from `after` can be prolonged by the order
    have hpath := hgreatest o.after
    cases height with
    | none =>
      have hnil : liveOrders p orders blockEnabled varActive = [] := by
        by_contra hne
        rw [crOrderHeights, if_neg hne] at hheight
        cases h : heightRounds (liveOrders p orders blockEnabled varActive) (p.varCount + 1)
          fun _ => 0 with
        | ok g | error item => simp [h, Except.map] at hheight
      rw [hnil] at ho
      exact absurd ho not_mem_nil
    | some g =>
      have hedge : (o.before, o.after) ∈ orderEdges (liveOrders p orders blockEnabled varActive) :=
        mem_map.2 ⟨o, ho, rfl⟩
      have hlt : g o.after < g o.before :=
        (hgreatest o.before).2 (WalkToSink.cons hedge hpath.1)
      exact drawnLayer_lt_of_height hlayers hinp hbefore hafter
        (by rw [hcyclic]; exact hlive.1.2) (by rw [hcyclic]; exact hlive.2) hlt hpre

/-- The constraint `x dist { 1 := w }` over two variables `x` and `w`. -/
def weightDist : CrProblem where
  nodes n := match n with
    | 0 => ⟨.var, false, 8, 0, 0, 0⟩
    | 1 => ⟨.var, false, 8, 1, 0, 0⟩
    | 2 => ⟨.const, false, 8, 0, 0, 0⟩
    | 3 => ⟨.eq, false, 1, 0, 2, 0⟩
    | _ => ⟨.dist, false, 1, 0, 0, 0⟩
  nodeCount := 5
  args _ := 0
  argCount := 0
  consts _ := 1
  constCount := 1
  vars _ := ⟨⟨8, false⟩, none, false⟩
  varCount := 2
  blockRoots _ := 4
  blockCount := 1
  leaves _ := ⟨1, false⟩
  leafCount := 0
  calls _ := ⟨⟨1, false⟩, 0, 0⟩
  callCount := 0
  dists _ := ⟨0, none, 0, 1⟩
  distCount := 1
  distItems _ := ⟨3, 2, 2, some 1, false, false⟩
  distItemCount := 1
  tables _ := ⟨0, 0⟩
  tableCount := 0
  tableItems _ := none
  tableItemCount := 0

/-- With `solve w before x` the order and the dist agree: `w` is drawn first. -/
theorem solve_orders_respected_weight :
    (∀ o ∈ [CrOrder.mk 0 1 0], o.before < weightDist.varCount ∧ o.after < weightDist.varCount) ∧
      ∃ height, crOrderHeights weightDist [⟨0, 1, 0⟩] (fun _ => true) (fun _ => true) =
        .ok height ∧
        drawnLayer (crPlanBuild ⟨[0, 1], fun _ => false, height, fun v => v == 1, 1, []⟩) 1 <
          drawnLayer (crPlanBuild ⟨[0, 1], fun _ => false, height, fun v => v == 1, 1, []⟩) 0 := by
  have horders : ∀ o ∈ [CrOrder.mk 0 1 0],
      o.before < weightDist.varCount ∧ o.after < weightDist.varCount := by decide
  obtain ⟨hcheck, hlayers⟩ := solve_orders_respected weightDist [⟨0, 1, 0⟩] (fun _ => true)
    (fun _ => true) (by decide) horders
  have hacyclic : ∀ v, ¬OrderedBefore (liveOrders weightDist [⟨0, 1, 0⟩] (fun _ => true)
      fun _ => true) v v := by
    intro v hv
    obtain ⟨item, hitem⟩ := (hcheck (by decide)).2 ⟨v, hv⟩
    cases hitem
  obtain ⟨height, hheight, -, hinp⟩ := hlayers hacyclic
  refine ⟨horders, height, hheight, ?_⟩
  have hsome : height = some _ := (Except.ok.inj hheight).symm
  subst hsome
  exact (hinp ⟨[0, 1], fun _ => false, _, fun v => v == 1, 1, []⟩ rfl (fun _ => rfl)
    (by decide +kernel)).1 ⟨0, 1, 0⟩ (by simp [liveOrders, crOrderLive, weightDist]) (by decide)
    (by decide) rfl

/-- With `solve x before w` the weight `w` is drawn in a layer before `x` all the same. -/
theorem weight_drawn_before_order : ∃ height,
    crOrderHeights weightDist [⟨0, 0, 1⟩] (fun _ => true) (fun _ => true) = .ok height ∧
      ⟨0, 0, 1⟩ ∈ liveOrders weightDist [⟨0, 0, 1⟩] (fun _ => true) (fun _ => true) ∧
      (crPlanBuild ⟨[0, 1], fun _ => false, height, fun v => v == 1, 1, []⟩).layered = true ∧
      ¬drawnLayer (crPlanBuild ⟨[0, 1], fun _ => false, height, fun v => v == 1, 1, []⟩) 0 <
        drawnLayer (crPlanBuild ⟨[0, 1], fun _ => false, height, fun v => v == 1, 1, []⟩) 1 :=
  ⟨_, rfl, by simp [liveOrders, crOrderLive, weightDist], by decide +kernel, by decide +kernel⟩

end Lapligence.Constraints
