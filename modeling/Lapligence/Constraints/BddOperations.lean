import Lapligence.Constraints.BddCanonical

/-!
# The operations of the decision-diagram manager

Every operation keeps the invariant of the manager, only adds nodes, and, as long as no
overflow is flagged, returns a handle of the intended function.  Each result is stated with
`Denotes`, under which an overflow is a case like any other, so the specifications compose
without side conditions.

`crBdd_run` puts them together: after any sequence of operations the diagram is reduced and
canonical, old handles keep their functions, and the diagram converted from a graph's
literal has the function of that literal.
-/

namespace Lapligence.Constraints

open Function LinearProbing Growth

variable {m m' : CrBdd} {quantOf : ℕ → ℕ → Bool} {F G : (ℕ → Bool) → Prop}
variable {f lv : ℕ} {g : CrAig} {need : ℕ → Bool} {bdd : ℕ → ℕ}

/-! ## Negation, conjunction, disjunction -/

/-- A terminal as a function. -/
lemma CrBdd.Wf.denotes_terminal (hm : m.Wf quantOf) (hf : f < 2) (hlv : lv ≤ m.levels)
    (hF : ∀ env, F env ↔ f = 1) : Denotes quantOf m f F lv := by
  have htwo := hm.two_le
  refine ⟨by omega, hm, fun _ => ⟨fun env => ?_, by rwa [hm.level_terminal f hf]⟩⟩
  interval_cases f <;> simp [hF]

lemma wp_crBddNotRec : ∀ (fuel : ℕ) (m : CrBdd) (f : ℕ), f < m.count →
    m.levels < fuel + m.level f →
    (bddGrowth quantOf).wp (crBddNotRec fuel f) m (fun r m' =>
      Denotes quantOf m' r (fun env => ¬m.eval env f = true) (m.level f)) := by
  intro fuel
  induction fuel with
  | zero =>
    intro m f hf hfuel hm
    have := hm.level_le f hf
    omega
  | succ fuel ih =>
    intro m f hf hfuel
    rw [crBddNotRec]
    by_cases hterm : f < 2
    · rw [if_pos hterm]
      refine wp_of_inv fun hm => wp_pure ?_
      refine hm.denotes_terminal (by interval_cases f <;> decide) (hm.level_le f hf) fun env => ?_
      interval_cases f <;> simp
    rw [if_neg hterm]
    refine wp_crBddMemo (.not f) hf fun m₁ hext hm₁ _ hf₁ => ?_
    have h2 : 2 ≤ f := by omega
    obtain ⟨hlo, hhi⟩ := hm₁.child_lt f h2 hf₁
    obtain ⟨hllo, hlhi⟩ := hm₁.ordered f h2 hf₁
    have hlevel := hext.level f hf
    have hlevels := hext.levels
    apply wp_bind
    refine wp_mono (ih m₁ (m₁.lo f) (hlo.trans hf₁) (by omega)) ?_
    intro nlo m₂ hext₂ hnlo _
    have hhi₂ : m₁.hi f < m₂.count := (hhi.trans hf₁).trans_le hext₂.count
    have hlhi₂ := hext₂.level _ (hhi.trans hf₁)
    have hlevels₂ := hext₂.levels
    apply wp_bind
    refine wp_mono (ih m₂ (m₁.hi f) hhi₂ (by omega)) ?_
    intro nhi m₃ hext₃ hnhi _
    refine wp_mono (wp_crBddMk (hnlo.mono hext₃ hnhi.2.1) hnhi hllo (by omega)) ?_
    intro r m₄ _ hr
    refine hr.congr fun env => ?_
    simp only [BddOp.fn]
    rw [hm₁.eval_node env h2 hf₁, hext₂.eval hm₁.toReduced env _ (hhi.trans hf₁)]
    split_ifs <;> rfl

lemma wp_crBddNot (hf : Denotes quantOf m f F lv) :
    (bddGrowth quantOf).wp (crBddNot f) m (fun r m' =>
      Denotes quantOf m' r (fun env => ¬F env) lv) := by
  refine wp_of_eq (y := crBddNotRec (m.levels + 1) f) rfl ?_
  refine wp_mono (wp_crBddNotRec _ m f hf.1 (by omega)) ?_
  intro r m' hext hr
  refine ⟨hr.1, hr.2.1, fun ho => ?_⟩
  obtain ⟨hF, hlv⟩ := hf.2.2 (hext.overflow ho)
  obtain ⟨hr, hle⟩ := hr.2.2 ho
  exact ⟨fun env => (hr env).trans (not_congr (hF env)), hlv.trans hle⟩

/-- Both cofactors lie below the level, and the handle is their Shannon combination. -/
lemma CrBdd.Reduced.cofactor (h : m.Reduced) {l : ℕ} (hf : f < m.count) (hl : l ≤ m.level f)
    (hlevels : l < m.levels) :
    (crBddCofactor m l f).1 < m.count ∧ (crBddCofactor m l f).2 < m.count ∧
      l < m.level (crBddCofactor m l f).1 ∧ l < m.level (crBddCofactor m l f).2 ∧
      ∀ env, m.eval env f = if env l = true then m.eval env (crBddCofactor m l f).2
        else m.eval env (crBddCofactor m l f).1 := by
  unfold crBddCofactor
  by_cases heq : m.level f = l
  · rw [if_pos heq]
    have h2 : 2 ≤ f := by
      by_contra hlt
      have := h.level_terminal f (by omega)
      omega
    obtain ⟨hlo, hhi⟩ := h.child_lt f h2 hf
    obtain ⟨hllo, hlhi⟩ := h.ordered f h2 hf
    exact ⟨hlo.trans hf, hhi.trans hf, heq ▸ hllo, heq ▸ hlhi, fun env => heq ▸ h.eval_node env h2 hf⟩
  · rw [if_neg heq]
    exact ⟨hf, hf, by dsimp only; omega, by dsimp only; omega, fun env => by rw [ite_self]⟩

/-- The body of `crBddAndRec` on two handles that are not terminals. -/
private lemma wp_crBddAndBody {fuel a b : ℕ}
    (ih : ∀ (m : CrBdd) (f g : ℕ), f < m.count → g < m.count →
      m.levels < fuel + min (m.level f) (m.level g) →
      (bddGrowth quantOf).wp (crBddAndRec fuel f g) m (fun r m' =>
        Denotes quantOf m' r (fun env => m.eval env f = true ∧ m.eval env g = true)
          (min (m.level f) (m.level g))))
    (hm : m.Wf quantOf) (ha : a < m.count) (hb : b < m.count) (ha2 : 2 ≤ a)
    (hfuel : m.levels < fuel + 1 + min (m.level a) (m.level b)) {l : ℕ}
    (hl : l = min (m.level a) (m.level b)) :
    (bddGrowth quantOf).wp (do
        let r0 ← crBddAndRec fuel (crBddCofactor m l a).1 (crBddCofactor m l b).1
        let r1 ← crBddAndRec fuel (crBddCofactor m l a).2 (crBddCofactor m l b).2
        crBddMk l r0 r1) m
      (fun r m' => Denotes quantOf m' r (fun env => m.eval env a = true ∧ m.eval env b = true) l) := by
  have hlevels : l < m.levels := by
    have := hm.level_lt ha2 ha
    omega
  obtain ⟨ha0, ha1, hla0, hla1, heva⟩ := hm.cofactor ha (show l ≤ m.level a by omega) hlevels
  obtain ⟨hb0, hb1, hlb0, hlb1, hevb⟩ := hm.cofactor hb (show l ≤ m.level b by omega) hlevels
  set a₀ := (crBddCofactor m l a).1
  set a₁ := (crBddCofactor m l a).2
  set b₀ := (crBddCofactor m l b).1
  set b₁ := (crBddCofactor m l b).2
  apply wp_bind
  refine wp_mono (ih m a₀ b₀ ha0 hb0 (by omega)) ?_
  intro r0 m₁ hext hr0 _
  have hc := hext.count
  have hla1' := hext.level a₁ ha1
  have hlb1' := hext.level b₁ hb1
  have hlevels₁ := hext.levels
  apply wp_bind
  refine wp_mono (ih m₁ a₁ b₁ (by omega) (by omega) (by omega)) ?_
  intro r1 m₂ hext₂ hr1 _
  refine wp_mono
    (wp_crBddMk (hr0.mono hext₂ hr1.2.1) hr1 (lt_min hla0 hlb0) (by omega)) ?_
  intro r m₃ _ hr
  refine hr.congr fun env => ?_
  rw [hext.eval hm.toReduced env a₁ ha1, hext.eval hm.toReduced env b₁ hb1, heva env, hevb env]
  split_ifs <;> rfl

lemma wp_crBddAndRec : ∀ (fuel : ℕ) (m : CrBdd) (f g : ℕ), f < m.count → g < m.count →
    m.levels < fuel + min (m.level f) (m.level g) →
    (bddGrowth quantOf).wp (crBddAndRec fuel f g) m (fun r m' =>
      Denotes quantOf m' r (fun env => m.eval env f = true ∧ m.eval env g = true)
        (min (m.level f) (m.level g))) := by
  intro fuel
  induction fuel with
  | zero =>
    intro m f g hf hg hfuel hm
    have := hm.level_le f hf
    omega
  | succ fuel ih =>
    intro m f g hf hg hfuel
    refine wp_of_inv fun hm => ?_
    rw [crBddAndRec]
    by_cases hzero : f = 0 ∨ g = 0
    · rw [if_pos hzero]
      have hle := hm.level_le f hf
      refine wp_pure (hm.denotes_terminal (by omega) (by omega) fun env => ?_)
      rcases hzero with rfl | rfl <;> simp
    rw [if_neg hzero]
    by_cases hone : f = 1
    · rw [if_pos hone]
      refine wp_pure (((hm.denotes hg).congr fun env => ?_).weaken (by omega))
      simp [hone]
    rw [if_neg hone]
    by_cases hsame : g = 1 ∨ f = g
    · rw [if_pos hsame]
      refine wp_pure (((hm.denotes hf).congr fun env => ?_).weaken (by omega))
      rcases hsame with rfl | rfl <;> simp
    rw [if_neg hsame]
    -- The operands are ordered before the table is asked, which changes neither side.
    have hsorted : ∀ a b, a < m.count → b < m.count → 2 ≤ a →
        m.levels < fuel + 1 + min (m.level a) (m.level b) →
        (bddGrowth quantOf).wp (crBddMemo (crBddKey 1 a b) fun m => do
          let l := if m.level a < m.level b then m.level a else m.level b
          let r0 ← crBddAndRec fuel (crBddCofactor m l a).1 (crBddCofactor m l b).1
          let r1 ← crBddAndRec fuel (crBddCofactor m l a).2 (crBddCofactor m l b).2
          crBddMk l r0 r1) m (fun r m' =>
            Denotes quantOf m' r (fun env => m.eval env a = true ∧ m.eval env b = true)
              (min (m.level a) (m.level b))) := by
      intro a b ha hb ha2 hfuel
      refine wp_crBddMemo (.and a b) ⟨ha, hb⟩ fun m₁ hext hm₁ _ hop => ?_
      have h1 := hext.level a ha
      have h2 := hext.level b hb
      have h3 := hext.levels
      have hmin : (if m₁.level a < m₁.level b then m₁.level a else m₁.level b) =
          min (m₁.level a) (m₁.level b) := by
        split_ifs <;> omega
      dsimp only
      rw [hmin]
      exact wp_crBddAndBody ih hm₁ hop.1 hop.2 ha2 (by omega) rfl
    by_cases hgt : f > g
    · simp only [if_pos hgt]
      refine wp_mono (hsorted g f hg hf (by omega) (by omega)) ?_
      intro r m' _ hr
      exact (hr.congr fun env => and_comm).weaken (by omega)
    · simp only [if_neg hgt]
      exact hsorted f g hf hg (by omega) hfuel

/-- A binary operation on what its operands denote. -/
lemma wp_crBddAnd {g : ℕ} (hf : Denotes quantOf m f F lv) (hg : Denotes quantOf m g G lv) :
    (bddGrowth quantOf).wp (crBddAnd f g) m (fun r m' =>
      Denotes quantOf m' r (fun env => F env ∧ G env) lv) := by
  refine wp_of_eq (y := crBddAndRec (m.levels + 1) f g) rfl ?_
  refine wp_mono (wp_crBddAndRec _ m f g hf.1 hg.1 (by omega)) ?_
  intro r m' hext hr
  refine ⟨hr.1, hr.2.1, fun ho => ?_⟩
  obtain ⟨hF, hlf⟩ := hf.2.2 (hext.overflow ho)
  obtain ⟨hG, hlg⟩ := hg.2.2 (hext.overflow ho)
  obtain ⟨hr, hle⟩ := hr.2.2 ho
  exact ⟨fun env => (hr env).trans (and_congr (hF env) (hG env)), (le_min hlf hlg).trans hle⟩

lemma wp_crBddOr {g : ℕ} (hf : Denotes quantOf m f F lv) (hg : Denotes quantOf m g G lv) :
    (bddGrowth quantOf).wp (crBddOr f g) m (fun r m' =>
      Denotes quantOf m' r (fun env => F env ∨ G env) lv) := by
  unfold crBddOr
  apply wp_bind
  refine wp_mono (wp_crBddNot hf) ?_
  intro nf m₁ hext₁ hnf _
  apply wp_bind
  refine wp_mono (wp_crBddNot (hg.mono hext₁ hnf.2.1)) ?_
  intro ng m₂ hext₂ hng _
  apply wp_bind
  refine wp_mono (wp_crBddAnd (hnf.mono hext₂ hng.2.1) hng) ?_
  intro r m₃ _ hr _
  refine wp_mono (wp_crBddNot hr) ?_
  intro r' m₄ _ hr'
  exact hr'.congr fun env => by tauto

/-! ## Quantification -/

/-- Quantifying the level of a node joins its children. -/
lemma CrBdd.Reduced.existsOver_join (h : m.Reduced) (h2 : 2 ≤ f) (hf : f < m.count)
    {quant : ℕ → Bool} (hq : quant (m.level f) = true) (env : ℕ → Bool) :
    ExistsOver quant (fun env => m.eval env f = true) env ↔
      ExistsOver quant (fun env => m.eval env (m.lo f) = true) env ∨
        ExistsOver quant (fun env => m.eval env (m.hi f) = true) env := by
  have hset : ∀ env' b, (∀ i, quant i = false → env' i = env i) →
      ∀ i, quant i = false → update env' (m.level f) b i = env i := by
    intro env' b hagree i hi
    rw [update_of_ne (by rintro rfl; simp [hq] at hi)]
    exact hagree i hi
  constructor
  · rintro ⟨env', hagree, heval⟩
    rw [h.eval_node env' h2 hf] at heval
    split_ifs at heval
    · exact .inr ⟨env', hagree, heval⟩
    · exact .inl ⟨env', hagree, heval⟩
  · rintro (⟨env', hagree, heval⟩ | ⟨env', hagree, heval⟩)
    · exact ⟨_, hset env' false hagree, (h.eval_lo h2 hf env').trans heval⟩
    · exact ⟨_, hset env' true hagree, (h.eval_hi h2 hf env').trans heval⟩

/-- A level that stays free splits a quantification like the node itself. -/
lemma CrBdd.Reduced.existsOver_split (h : m.Reduced) (h2 : 2 ≤ f) (hf : f < m.count)
    {quant : ℕ → Bool} (hq : quant (m.level f) = false) (env : ℕ → Bool) :
    ExistsOver quant (fun env => m.eval env f = true) env ↔
      if env (m.level f) = true then ExistsOver quant (fun env => m.eval env (m.hi f) = true) env
      else ExistsOver quant (fun env => m.eval env (m.lo f) = true) env := by
  have hnode : ∀ env', (∀ i, quant i = false → env' i = env i) → m.eval env' f =
      if env (m.level f) = true then m.eval env' (m.hi f) else m.eval env' (m.lo f) := by
    intro env' hagree
    rw [h.eval_node env' h2 hf, hagree _ hq]
  simp only [ExistsOver]
  split_ifs with hl <;> refine exists_congr fun env' => and_congr_right fun hagree => ?_ <;>
    rw [hnode env' hagree]
  · rw [if_pos hl]
  · rw [if_neg hl]

lemma wp_crBddExistsRec {tag : ℕ} (htag : tag < 2 ^ 31) :
    ∀ (fuel : ℕ) (m : CrBdd) (f : ℕ), f < m.count → m.levels < fuel + m.level f →
    (bddGrowth quantOf).wp (crBddExistsRec (quantOf tag) tag fuel f) m (fun r m' =>
      Denotes quantOf m' r (ExistsOver (quantOf tag) (fun env => m.eval env f = true))
        (m.level f)) := by
  intro fuel
  induction fuel with
  | zero =>
    intro m f hf hfuel hm
    have := hm.level_le f hf
    omega
  | succ fuel ih =>
    intro m f hf hfuel
    rw [crBddExistsRec]
    by_cases hterm : f < 2
    · rw [if_pos hterm]
      refine wp_of_inv fun hm => wp_pure ?_
      refine hm.denotes_terminal hterm (hm.level_le f hf) fun env => ?_
      interval_cases f
      · simp [ExistsOver]
      · simpa [ExistsOver] using ⟨env, fun _ _ => rfl⟩
    rw [if_neg hterm]
    refine wp_crBddMemo (.exists f tag) ⟨hf, htag⟩ fun m₁ hext hm₁ _ hop => ?_
    have h2 : 2 ≤ f := by omega
    have hf₁ := hop.1
    obtain ⟨hlo, hhi⟩ := hm₁.child_lt f h2 hf₁
    obtain ⟨hllo, hlhi⟩ := hm₁.ordered f h2 hf₁
    have hlevel := hext.level f hf
    have hlevels := hext.levels
    apply wp_bind
    refine wp_mono (ih m₁ (m₁.lo f) (hlo.trans hf₁) (by omega)) ?_
    intro rlo m₂ hext₂ hrlo _
    have hhi₂ : m₁.hi f < m₂.count := (hhi.trans hf₁).trans_le hext₂.count
    have hlhi₂ := hext₂.level _ (hhi.trans hf₁)
    have hlevels₂ := hext₂.levels
    apply wp_bind
    refine wp_mono (ih m₂ (m₁.hi f) hhi₂ (by omega)) ?_
    intro rhi m₃ hext₃ hrhi _
    simp only [hext₂.eval hm₁.toReduced _ _ (hhi.trans hf₁), hlhi₂] at hrhi
    have hrlo₃ := hrlo.mono hext₃ hrhi.2.1
    by_cases hq : quantOf tag (m₁.level f) = true
    · rw [if_pos hq]
      refine wp_mono (wp_crBddOr (hrlo₃.weaken hllo.le) (hrhi.weaken hlhi.le)) ?_
      intro r m₄ _ hr
      exact hr.congr fun env => (hm₁.existsOver_join h2 hf₁ hq env).symm
    · rw [if_neg hq]
      refine wp_mono (wp_crBddMk hrlo₃ hrhi hllo hlhi) ?_
      intro r m₄ _ hr
      refine hr.congr fun env => (hm₁.existsOver_split h2 hf₁ ?_ env).symm
      simpa using hq

lemma wp_crBddExists {tag : ℕ} (hf : Denotes quantOf m f F lv) (htag : tag < 2 ^ 31) :
    (bddGrowth quantOf).wp (crBddExists f (quantOf tag) tag) m (fun r m' =>
      Denotes quantOf m' r (ExistsOver (quantOf tag) F) lv) := by
  refine wp_of_eq (y := crBddExistsRec (quantOf tag) tag (m.levels + 1) f) rfl ?_
  refine wp_mono (wp_crBddExistsRec htag _ m f hf.1 (by omega)) ?_
  intro r m' hext hr
  refine ⟨hr.1, hr.2.1, fun ho => ?_⟩
  obtain ⟨hF, hlv⟩ := hf.2.2 (hext.overflow ho)
  obtain ⟨hr, hle⟩ := hr.2.2 ho
  simp only [ExistsOver, hF] at hr
  exact ⟨hr, hlv.trans hle⟩

/-! ## Conversion of a graph -/

/-- Operands precede their conjunction, as they do in every graph the constructors build. -/
def CrAig.Ordered (g : CrAig) : Prop :=
  ∀ n, g.inputs < n → n < g.count → g.left n / 2 < n ∧ g.right n / 2 < n

lemma crAigInit_ordered (inputs limit : ℕ) : (crAigInit inputs limit).Ordered := by
  intro n hinput hcount
  exact absurd (show n < inputs + 1 from hcount) (Nat.not_lt.2 hinput)

lemma CrAig.Ordered.append (hg : g.Ordered) {slot a b : ℕ} (ha : a / 2 < g.count) (hb : b / 2 < g.count) :
    (crAigAppend g slot a b).Ordered := by
  have hnew : ∀ n, g.inputs < n → n < g.count + 1 →
      update g.left g.count a n / 2 < n ∧ update g.right g.count b n / 2 < n := by
    intro n hinput hcount
    rcases Nat.lt_succ_iff_lt_or_eq.1 hcount with hold | rfl
    · rw [update_of_ne hold.ne, update_of_ne hold.ne]
      exact hg n hinput hold
    · rw [update_self, update_self]
      exact ⟨ha, hb⟩
  -- the table does not matter
  rw [crAigAppend]
  dsimp only
  split_ifs <;> exact hnew

lemma CrAig.Ordered.intern (hg : g.Ordered) {a b : ℕ} (ha : a / 2 < g.count) (hb : b / 2 < g.count) :
    (crAigIntern a b g).2.Ordered := by
  unfold crAigIntern
  split
  · exact hg
  · split_ifs
    · exact hg
    · exact hg.append ha hb
  · exact hg

/-- A conjunction of earlier literals keeps the order. -/
lemma CrAig.Ordered.and (hg : g.Ordered) {a b : ℕ} (ha : a / 2 < g.count) (hb : b / 2 < g.count) :
    (crAnd a b g).2.Ordered := by
  unfold crAnd
  dsimp only
  split_ifs <;> first | exact hg | exact hg.intern ha hb | exact hg.intern hb ha

/-- The marks are closed: a marked conjunction has its operands marked. -/
def NeedClosed (g : CrAig) (need : ℕ → Bool) : Prop :=
  ∀ n, g.inputs < n → n < g.count → need n = true →
    need (g.left n / 2) = true ∧ need (g.right n / 2) = true

lemma crAigNeed_mono (g : CrAig) : ∀ (n : ℕ) (need : ℕ → Bool) (k : ℕ), need k = true →
    crAigNeed g need n k = true := by
  intro n
  induction n with
  | zero => exact fun _ _ h => h
  | succ n ih =>
    intro need k hk
    rw [crAigNeed]
    split_ifs
    · refine ih _ k ?_
      by_cases hr : k = g.right n / 2
      · simp [hr]
      by_cases hl : k = g.left n / 2
      · rw [update_of_ne hr, hl, update_self]
      · rwa [update_of_ne hr, update_of_ne hl]
    · exact ih _ k hk

/-- Going down from `n` closes the nodes below `n` and marks nothing at or above it.  Operands
precede their node, so a node already passed gains no mark. -/
lemma crAigNeed_closed (hg : g.Ordered) :
    ∀ (n : ℕ) (need : ℕ → Bool), n ≤ g.count →
      (∀ k, n ≤ k → crAigNeed g need n k = need k) ∧
      ∀ k, g.inputs < k → k < n → crAigNeed g need n k = true →
        crAigNeed g need n (g.left k / 2) = true ∧ crAigNeed g need n (g.right k / 2) = true := by
  intro n
  induction n with
  | zero => exact fun need _ => ⟨fun _ _ => rfl, fun k _ hk => absurd hk (by omega)⟩
  | succ n ih =>
    intro need hn
    rw [crAigNeed]
    by_cases hmark : n > g.inputs ∧ need n = true
    · rw [if_pos hmark]
      obtain ⟨hl, hr⟩ := hg n hmark.1 (by omega)
      set need' := update (update need (g.left n / 2) true) (g.right n / 2) true with hneed'
      obtain ⟨hsame, hclosed⟩ := ih need' (by omega)
      refine ⟨fun k hk => ?_, fun k hki hk hmk => ?_⟩
      · rw [hsame k (by omega), hneed', update_of_ne (by omega), update_of_ne (by omega)]
      · rcases Nat.lt_succ_iff_lt_or_eq.mp hk with hlt | rfl
        · exact hclosed k hki hlt hmk
        · refine ⟨crAigNeed_mono g _ _ _ ?_, crAigNeed_mono g _ _ _ ?_⟩
          · by_cases heq : g.left k / 2 = g.right k / 2
            · rw [hneed', heq, update_self]
            · rw [hneed', update_of_ne heq, update_self]
          · rw [hneed', update_self]
    · rw [if_neg hmark]
      obtain ⟨hsame, hclosed⟩ := ih need (by omega)
      refine ⟨fun k hk => hsame k (by omega), fun k hki hk hmk => ?_⟩
      rcases Nat.lt_succ_iff_lt_or_eq.mp hk with hlt | rfl
      · exact hclosed k hki hlt hmk
      · rw [hsame k le_rfl] at hmk
        exact absurd ⟨hki, hmk⟩ hmark

lemma wp_crBddOperand {l : ℕ}
    (h : Denotes quantOf m (bdd (l / 2)) (fun env => g.nodeValue env (l / 2) = true) 0) :
    (bddGrowth quantOf).wp (crBddOperand bdd l) m (fun r m' =>
      Denotes quantOf m' r (fun env => g.litValue env l = true) 0) := by
  unfold crBddOperand
  split_ifs with hodd
  · refine wp_mono (wp_crBddNot h) ?_
    intro r m' _ hr
    exact hr.congr fun env => by simp [CrAig.litValue, hodd]
  · have heven : l % 2 = 0 := by omega
    exact wp_pure (h.congr fun env => by simp [CrAig.litValue, heven])

/-- The diagrams of the needed nodes below `n`; the later entries are still `0`. -/
def Converted (quantOf : ℕ → ℕ → Bool) (g : CrAig) (need : ℕ → Bool) (n : ℕ) (bdd : ℕ → ℕ)
    (m : CrBdd) : Prop :=
  (∀ k, n ≤ k → bdd k = 0) ∧ ∀ k < n, need k = true ∨ k = 0 →
    Denotes quantOf m (bdd k) (fun env => g.nodeValue env k = true) 0

lemma Converted.mono {n : ℕ}
    (h : Converted quantOf g need n bdd m) (hext : m.Extends m') (hm' : m'.Wf quantOf) :
    Converted quantOf g need n bdd m' :=
  ⟨h.1, fun k hk hneed => (h.2 k hk hneed).mono hext hm'⟩

/-- The entry of node `n` completes the conversion up to `n`. -/
lemma Converted.succ {n r : ℕ} (h : Converted quantOf g need n bdd m)
    (hr : Denotes quantOf m r (fun env => g.nodeValue env n = true) 0) :
    Converted quantOf g need (n + 1) (update bdd n r) m := by
  refine ⟨fun k hk => by rw [update_of_ne (by omega), h.1 k (by omega)], fun k hk hneed => ?_⟩
  rcases Nat.lt_succ_iff_lt_or_eq.mp hk with hlt | rfl
  · rw [update_of_ne (by omega)]
    exact h.2 k hlt hneed
  · rwa [update_self]

/-- An entry left at `0` completes the conversion if it is not needed, is node `0`, or the
build has overflowed. -/
lemma Converted.skip {n : ℕ} (h : Converted quantOf g need n bdd m) (hskip : need n = true ∨ n = 0 →
      Denotes quantOf m 0 (fun env => g.nodeValue env n = true) 0) :
    Converted quantOf g need (n + 1) bdd m := by
  refine ⟨fun k hk => h.1 k (by omega), fun k hk hneed => ?_⟩
  rcases Nat.lt_succ_iff_lt_or_eq.mp hk with hlt | rfl
  · exact h.2 k hlt hneed
  · rw [h.1 k le_rfl]
    exact hskip hneed

lemma wp_crBddConvert (hg : g.Ordered) (hneed : NeedClosed g need) (hinputs : g.inputs ≤ m.levels) :
    ∀ n ≤ g.count, (bddGrowth quantOf).wp (crBddConvert g need n) m (fun bdd m' =>
      Converted quantOf g need n bdd m') := by
  intro n
  induction n with
  | zero => exact fun _ => wp_pure ⟨fun _ _ => rfl, fun k hk => absurd hk (by omega)⟩
  | succ n ih =>
    intro hn
    rw [crBddConvert]
    apply wp_bind
    refine wp_mono (ih (by omega)) ?_
    intro bdd m₁ hext hbdd _
    refine wp_of_inv fun hm₁ => ?_
    have hlevels := hext.levels
    by_cases hzero : n = 0 ∨ (!need n) = true
    · rw [if_pos hzero]
      refine wp_pure (hbdd.skip fun hskip => ?_)
      have hn0 : n = 0 := by
        rcases hskip with hskip | rfl
        · simpa [hskip] using hzero
        · rfl
      exact hm₁.denotes_terminal (by omega) (by omega) fun env => by simp [hn0]
    rw [if_neg hzero]
    simp only [Bool.not_eq_true', not_or, Bool.not_eq_false] at hzero
    by_cases hinput : n ≤ g.inputs
    · rw [if_pos hinput]
      -- An input is the variable of its level.
      apply wp_bind
      have hterm : ∀ f < 2, Denotes quantOf m₁ f (fun _ => f = 1) m₁.levels :=
        fun f hf => hm₁.denotes_terminal hf le_rfl fun _ => Iff.rfl
      refine wp_mono (wp_crBddMk (l := n - 1) (hterm 0 (by omega)) (hterm 1 (by omega))
        (by omega) (by omega)) ?_
      intro r m₂ hext₂ hr _
      refine wp_pure ((hbdd.mono hext₂ hr.2.1).succ
        ((hr.congr fun env => ?_).weaken (Nat.zero_le _)))
      simp [g.nodeValue_input env hzero.1 hinput]
    rw [if_neg hinput]
    apply wp_bind
    refine wp_get fun _ => ?_
    by_cases hover : m₁.overflow ≠ 0
    · rw [if_pos hover]
      exact wp_pure (hbdd.skip fun _ =>
        hm₁.denotes_overflow hover (by have := hm₁.two_le; omega) 0)
    rw [if_neg hover]
    -- Both operands are needed and come earlier.
    obtain ⟨hl, hr⟩ := hg n (by omega) (by omega)
    obtain ⟨hnl, hnr⟩ := hneed n (by omega) (by omega) hzero.2
    apply wp_bind
    refine wp_mono (wp_crBddOperand (hbdd.2 _ hl (.inl hnl))) ?_
    intro a m₂ hext₂ ha _
    have hbdd₂ := hbdd.mono hext₂ ha.2.1
    apply wp_bind
    refine wp_mono (wp_crBddOperand (hbdd₂.2 _ hr (.inl hnr))) ?_
    intro b m₃ hext₃ hb _
    apply wp_bind
    refine wp_mono (wp_crBddAnd (ha.mono hext₃ hb.2.1) hb) ?_
    intro r m₄ hext₄ hr' _
    refine wp_pure (((hbdd₂.mono hext₃ hb.2.1).mono hext₄ hr'.2.1).succ
      (hr'.congr fun env => ?_))
    rw [g.nodeValue_and env (by omega) ⟨hl, hr⟩, Bool.and_eq_true]

lemma wp_crBddFromAig {out : ℕ} (hg : g.Ordered)
    (hinputs : g.inputs ≤ m.levels) (hout : out / 2 < g.count) :
    (bddGrowth quantOf).wp (crBddFromAig g out) m (fun r m' =>
      Denotes quantOf m' r (fun env => g.litValue env out = true) 0) := by
  unfold crBddFromAig
  obtain ⟨-, hclosed⟩ := crAigNeed_closed hg g.count (fun n => n == out / 2) le_rfl
  apply wp_bind
  refine wp_mono (wp_crBddConvert hg hclosed hinputs g.count le_rfl) ?_
  intro bdd m₁ _ hbdd _
  have hroot : crAigNeed g (fun n => n == out / 2) g.count (out / 2) = true :=
    crAigNeed_mono g _ _ _ (by simp)
  apply wp_bind
  refine wp_mono (wp_crBddOperand (hbdd.2 _ hout (.inl hroot))) ?_
  intro r m₂ _ hr _
  apply wp_bind
  refine wp_get fun _ => ?_
  split_ifs with hover
  · exact wp_pure (hr.2.1.denotes_overflow hover (by have := hr.2.1.two_le; omega) 0)
  · exact wp_pure hr

/-! ## Runs -/

/-- One call of the manager on handles it has given out.  A tag stands for the same set of
levels in every call (`cr_layer_roots` uses the number of a layer). -/
inductive BddStep (quantOf : ℕ → ℕ → Bool) (m : CrBdd) : CrBdd → Prop
  | not {f : ℕ} (hf : f < m.count) : BddStep quantOf m (crBddNot f m).2
  | and {f g : ℕ} (hf : f < m.count) (hg : g < m.count) : BddStep quantOf m (crBddAnd f g m).2
  | or {f g : ℕ} (hf : f < m.count) (hg : g < m.count) : BddStep quantOf m (crBddOr f g m).2
  | exists {f tag : ℕ} (hf : f < m.count) (htag : tag < 2 ^ 31) :
      BddStep quantOf m (crBddExists f (quantOf tag) tag m).2
  | convert {g : CrAig} {need : ℕ → Bool} (hg : g.Ordered) (hinputs : g.inputs ≤ m.levels)
      (hneed : NeedClosed g need) : BddStep quantOf m (crBddConvert g need g.count m).2
  | fromAig {g : CrAig} {out : ℕ} (hg : g.Ordered) (hinputs : g.inputs ≤ m.levels)
      (hout : out / 2 < g.count) : BddStep quantOf m (crBddFromAig g out m).2

lemma BddStep.wf_extends (h : BddStep quantOf m m') (hm : m.Wf quantOf) :
    m'.Wf quantOf ∧ m.Extends m' := by
  cases h with
  | not hf =>
    obtain ⟨hwf, hext, -⟩ := wp_crBddNot (hm.denotes hf) hm
    exact ⟨hwf, hext⟩
  | and hf hg =>
    obtain ⟨hwf, hext, -⟩ := wp_crBddAnd ((hm.denotes hf).weaken (Nat.zero_le _))
      ((hm.denotes hg).weaken (Nat.zero_le _)) hm
    exact ⟨hwf, hext⟩
  | or hf hg =>
    obtain ⟨hwf, hext, -⟩ := wp_crBddOr ((hm.denotes hf).weaken (Nat.zero_le _))
      ((hm.denotes hg).weaken (Nat.zero_le _)) hm
    exact ⟨hwf, hext⟩
  | «exists» hf htag =>
    obtain ⟨hwf, hext, -⟩ := wp_crBddExists (hm.denotes hf) htag hm
    exact ⟨hwf, hext⟩
  | convert hg hinputs hneed =>
    obtain ⟨hwf, hext, -⟩ := wp_crBddConvert hg hneed hinputs _ le_rfl hm
    exact ⟨hwf, hext⟩
  | fromAig hg hinputs hout =>
    obtain ⟨hwf, hext, -⟩ := wp_crBddFromAig hg hinputs hout hm
    exact ⟨hwf, hext⟩

lemma BddStep.run_wf_extends (h : Relation.ReflTransGen (BddStep quantOf) m m')
    (hm : m.Wf quantOf) : m'.Wf quantOf ∧ m.Extends m' := by
  induction h with
  | refl => exact ⟨hm, CrBdd.Extends.refl m⟩
  | tail _ hstep ih =>
    obtain ⟨hwf, hext⟩ := hstep.wf_extends ih.1
    exact ⟨hwf, ih.2.trans hext⟩

/-- What a result that denotes `F` gives once the flag is checked. -/
lemma Denotes.eval_iff {r : ℕ} (hr : Denotes quantOf m r F lv) (ho : m.overflow = 0)
    (env : ℕ → Bool) : m.eval env r = true ↔ F env :=
  (hr.2.2 ho).1 env

/-- **The manager over whole runs.**  Let `m` be reached from a fresh manager by any sequence
of calls.  Its nodes form a reduced ordered diagram, so handles are equal exactly when their
functions are; and the next call, unless it ends with an overflow flagged, gives a handle of
the intended function.  The order of the variables is the numbering of the graph's inputs. -/
theorem crBdd_run {levels limit : ℕ}
    (h : Relation.ReflTransGen (BddStep quantOf) (crBddInit levels limit) m) :
    (∀ n, 2 ≤ n → n < m.count → m.lo n ≠ m.hi n) ∧
    (∀ n, 2 ≤ n → n < m.count →
      m.level n < m.level (m.lo n) ∧ m.level n < m.level (m.hi n)) ∧
    (∀ n n', 2 ≤ n → n < m.count → 2 ≤ n' → n' < m.count →
      m.level n = m.level n' → m.lo n = m.lo n' → m.hi n = m.hi n' → n = n') ∧
    (∀ f g, f < m.count → g < m.count → (f = g ↔ ∀ env, m.eval env f = m.eval env g)) ∧
    (∀ m', BddStep quantOf m m' → ∀ f < m.count, f < m'.count ∧
      ∀ env, m'.eval env f = m.eval env f) ∧
    (∀ f < m.count, (crBddNot f m).2.overflow = 0 → ∀ env,
      (crBddNot f m).2.eval env (crBddNot f m).1 = !m.eval env f) ∧
    (∀ f g, f < m.count → g < m.count → (crBddAnd f g m).2.overflow = 0 → ∀ env,
      (crBddAnd f g m).2.eval env (crBddAnd f g m).1 = (m.eval env f && m.eval env g)) ∧
    (∀ f g, f < m.count → g < m.count → (crBddOr f g m).2.overflow = 0 → ∀ env,
      (crBddOr f g m).2.eval env (crBddOr f g m).1 = (m.eval env f || m.eval env g)) ∧
    (∀ f tag, f < m.count → tag < 2 ^ 31 →
      (crBddExists f (quantOf tag) tag m).2.overflow = 0 → ∀ env,
      ((crBddExists f (quantOf tag) tag m).2.eval env (crBddExists f (quantOf tag) tag m).1 = true ↔
        ExistsOver (quantOf tag) (fun env' => m.eval env' f = true) env)) ∧
    (∀ (g : CrAig) (need : ℕ → Bool), g.Ordered → g.inputs ≤ levels → NeedClosed g need →
      (crBddConvert g need g.count m).2.overflow = 0 → ∀ n < g.count, need n = true → ∀ env,
      (crBddConvert g need g.count m).2.eval env ((crBddConvert g need g.count m).1 n) =
        g.nodeValue env n) ∧
    (∀ (g : CrAig) (out : ℕ), g.Ordered → g.inputs ≤ levels → out / 2 < g.count →
      (crBddFromAig g out m).2.overflow = 0 → ∀ env,
      (crBddFromAig g out m).2.eval env (crBddFromAig g out m).1 = g.litValue env out) := by
  obtain ⟨hm, hext⟩ := BddStep.run_wf_extends h (crBddInit_wf quantOf levels limit)
  have hlevels : m.levels = levels := hext.levels
  have hany : ∀ f, f < m.count → Denotes quantOf m f (fun env => m.eval env f = true) 0 :=
    fun f hf => (hm.denotes hf).weaken (Nat.zero_le _)
  refine ⟨hm.children_ne, hm.ordered, hm.unique, ?_, ?_, ?_, ?_, ?_, ?_, ?_, ?_⟩
  · intro f g hf hg
    exact ⟨fun heq env => by rw [heq], hm.eq_of_eval hf hg⟩
  · intro m' hstep f hf
    obtain ⟨-, hext'⟩ := hstep.wf_extends hm
    exact ⟨hf.trans_le hext'.count, fun env => hext'.eval hm.toReduced env f hf⟩
  · intro f hf ho env
    have hr := (wp_crBddNot (hany f hf) hm).2.2.eval_iff ho env
    rw [Bool.eq_iff_iff, hr, Bool.not_eq_true', Bool.not_eq_true]
  · intro f g hf hg ho env
    have hr := (wp_crBddAnd (hany f hf) (hany g hg) hm).2.2.eval_iff ho env
    rw [Bool.eq_iff_iff, hr, Bool.and_eq_true]
  · intro f g hf hg ho env
    have hr := (wp_crBddOr (hany f hf) (hany g hg) hm).2.2.eval_iff ho env
    rw [Bool.eq_iff_iff, hr, Bool.or_eq_true]
  · intro f tag hf htag ho env
    exact (wp_crBddExists (hany f hf) htag hm).2.2.eval_iff ho env
  · intro g need hg hinputs hneed ho n hn hmark env
    have hr := (wp_crBddConvert hg hneed (hlevels ▸ hinputs) _ le_rfl hm).2.2.2 n hn (.inl hmark)
    rw [Bool.eq_iff_iff, hr.eval_iff ho env]
  · intro g out hg hinputs hout ho env
    have hr := (wp_crBddFromAig hg (hlevels ▸ hinputs) hout hm).2.2.eval_iff ho env
    rw [Bool.eq_iff_iff, hr]

/-- The graph of `a && !b`; its only conjunction is node 3. -/
def andNotGraph : CrAig := (crAnd 2 5 (crAigInit 2 100)).2

lemma andNotGraph_ordered : andNotGraph.Ordered :=
  (crAigInit_ordered 2 100).and (by decide) (by decide)

/-- The diagram of `!(a && !b)` in a fresh manager, after a disjunction of the terminals. -/
theorem crBdd_run_andNot :
    (crBddFromAig andNotGraph 7 (crBddOr 0 1 (crBddInit 2 100)).2).2.overflow = 0 ∧
      ∀ env, (crBddFromAig andNotGraph 7 (crBddOr 0 1 (crBddInit 2 100)).2).2.eval env
        (crBddFromAig andNotGraph 7 (crBddOr 0 1 (crBddInit 2 100)).2).1 =
          andNotGraph.litValue env 7 := by
  have hover : (crBddFromAig andNotGraph 7 (crBddOr 0 1 (crBddInit 2 100)).2).2.overflow = 0 := by
    decide +kernel
  have hrun := @crBdd_run _ (fun _ _ => false) 2 100
    (.single (.or (f := 0) (g := 1) (by decide) (by decide)))
  obtain ⟨-, -, -, -, -, -, -, -, -, -, hconv⟩ := hrun
  exact ⟨hover, hconv andNotGraph 7 andNotGraph_ordered (by decide +kernel) (by decide +kernel) hover⟩

end Lapligence.Constraints
