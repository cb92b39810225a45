import Lapligence.Constraints.Bdd
import Mathlib.Tactic.IntervalCases

/-!
# Decision diagrams stay canonical

The meaning of a handle is `CrBdd.eval`.  `CrBdd.Wf` is the invariant of the manager: its
nodes form a reduced ordered diagram (`CrBdd.Reduced`), the unique table indexes all of
them, and every entry of the computed table is right.  `CrBdd.Reduced.eq_of_eval` is
canonicity: in a reduced diagram a handle is determined by its function.

Making a node and remembering a result keep the invariant; the operations built from them
are the subject of `Constraints/BddOperations.lean`.
-/

namespace Lapligence.Constraints

open Function LinearProbing Growth

/-! ## Meaning of a handle -/

/-- The value of handle `n` when level `l` carries bit `env l`.  Children precede their node
in every manager the operations build; the test only makes the recursion visibly terminate. -/
def CrBdd.eval (m : CrBdd) (env : ℕ → Bool) (n : ℕ) : Bool :=
  if n < 2 then n == 1
  else if (if env (m.level n) then m.hi n else m.lo n) < n then
    m.eval env (if env (m.level n) then m.hi n else m.lo n)
  else false
termination_by n

@[simp] lemma CrBdd.eval_zero (m : CrBdd) (env : ℕ → Bool) : m.eval env 0 = false := by
  rw [CrBdd.eval]
  rfl

@[simp] lemma CrBdd.eval_one (m : CrBdd) (env : ℕ → Bool) : m.eval env 1 = true := by
  rw [CrBdd.eval]
  rfl

lemma CrBdd.eval_node (m : CrBdd) (env : ℕ → Bool) {n : ℕ} (hn : 2 ≤ n)
    (hlt : m.lo n < n ∧ m.hi n < n) :
    m.eval env n = if env (m.level n) then m.eval env (m.hi n) else m.eval env (m.lo n) := by
  rw [CrBdd.eval, if_neg (by omega)]
  cases env (m.level n)
  · simp [hlt.1]
  · simp [hlt.2]

/-- The nodes form a reduced ordered diagram: children come earlier and differ, levels
strictly increase along every edge, and a triple has at most one node. -/
structure CrBdd.Reduced (m : CrBdd) : Prop where
  two_le : 2 ≤ m.count
  level_terminal : ∀ n < 2, m.level n = m.levels
  child_lt : ∀ n, 2 ≤ n → n < m.count → m.lo n < n ∧ m.hi n < n
  children_ne : ∀ n, 2 ≤ n → n < m.count → m.lo n ≠ m.hi n
  ordered : ∀ n, 2 ≤ n → n < m.count → m.level n < m.level (m.lo n) ∧ m.level n < m.level (m.hi n)
  unique : ∀ n n', 2 ≤ n → n < m.count → 2 ≤ n' → n' < m.count → m.level n = m.level n' →
    m.lo n = m.lo n' → m.hi n = m.hi n' → n = n'

variable {m m' : CrBdd}
variable {r n l lv lo hi f : ℕ} {op : BddOp}

lemma CrBdd.Reduced.eval_node (h : m.Reduced) (env : ℕ → Bool) (hn : 2 ≤ n) (hlt : n < m.count) :
    m.eval env n = if env (m.level n) then m.eval env (m.hi n) else m.eval env (m.lo n) :=
  m.eval_node env hn (h.child_lt n hn hlt)

lemma CrBdd.Reduced.level_le (h : m.Reduced) : ∀ n < m.count, m.level n ≤ m.levels := by
  intro n
  induction n using Nat.strong_induction_on with
  | _ n ih =>
    intro hlt
    rcases lt_or_ge n 2 with hn | hn
    · exact (h.level_terminal n hn).le
    · have hc := (h.child_lt n hn hlt).1
      have := ih _ hc (by omega)
      have := (h.ordered n hn hlt).1
      omega

lemma CrBdd.Reduced.level_lt (h : m.Reduced) (hn : 2 ≤ n) (hlt : n < m.count) :
    m.level n < m.levels := by
  have := (h.ordered n hn hlt).1
  have := h.level_le _ ((h.child_lt n hn hlt).1.trans hlt)
  omega

/-- A handle does not read the levels above its own. -/
lemma CrBdd.Reduced.eval_congr (h : m.Reduced) {env env' : ℕ → Bool} :
    ∀ n < m.count, (∀ i, m.level n ≤ i → env i = env' i) → m.eval env n = m.eval env' n := by
  intro n
  induction n using Nat.strong_induction_on with
  | _ n ih =>
    intro hlt heq
    rcases lt_or_ge n 2 with hn | hn
    · interval_cases n <;> simp
    · obtain ⟨hlo, hhi⟩ := h.child_lt n hn hlt
      obtain ⟨holo, hohi⟩ := h.ordered n hn hlt
      rw [h.eval_node env hn hlt, h.eval_node env' hn hlt, heq _ le_rfl,
        ih _ hlo (by omega) (fun i hi => heq i (by omega)),
        ih _ hhi (by omega) (fun i hi => heq i (by omega))]

lemma CrBdd.Reduced.eval_update (h : m.Reduced) (hlt : n < m.count)
    (hl : l < m.level n) (env : ℕ → Bool) (b : Bool) : m.eval (update env l b) n = m.eval env n :=
  h.eval_congr n hlt (fun i hi => update_of_ne (by omega) _ _)

/-- The cofactors of a node are its children. -/
lemma CrBdd.Reduced.eval_lo (h : m.Reduced) (hn : 2 ≤ n) (hlt : n < m.count)
    (env : ℕ → Bool) : m.eval (update env (m.level n) false) n = m.eval env (m.lo n) := by
  obtain ⟨hlo, -⟩ := h.child_lt n hn hlt
  rw [h.eval_node _ hn hlt, update_self, if_neg Bool.false_ne_true]
  exact h.eval_update (hlo.trans hlt) (h.ordered n hn hlt).1 env false

lemma CrBdd.Reduced.eval_hi (h : m.Reduced) (hn : 2 ≤ n) (hlt : n < m.count)
    (env : ℕ → Bool) : m.eval (update env (m.level n) true) n = m.eval env (m.hi n) := by
  obtain ⟨-, hhi⟩ := h.child_lt n hn hlt
  rw [h.eval_node _ hn hlt, update_self, if_pos rfl]
  exact h.eval_update (hhi.trans hlt) (h.ordered n hn hlt).2 env true

/-- **Canonicity.**  Two handles with one function are one handle.  The induction is on a
bound of both handles: equal functions have equal cofactors at the upper level, where a node
of that level facing a lower handle would have children of one function. -/
theorem CrBdd.Reduced.eq_of_eval (h : m.Reduced) {g : ℕ} (hf : f < m.count) (hg : g < m.count)
    (heq : ∀ env, m.eval env f = m.eval env g) : f = g := by
  suffices hbound : ∀ N, ∀ f g, f < N → g < N → f < m.count → g < m.count →
      (∀ env, m.eval env f = m.eval env g) → f = g from
    hbound (max f g + 1) f g (by omega) (by omega) hf hg heq
  intro N
  induction N with
  | zero => omega
  | succ N ih =>
    have hupper : ∀ f g, f < N + 1 → f < m.count → g < m.count → 2 ≤ f →
        m.level f < m.level g → (∀ env, m.eval env f = m.eval env g) → False := by
      intro f g hfN hf hg h2 hlevel heq
      obtain ⟨hlo, hhi⟩ := h.child_lt f h2 hf
      refine h.children_ne f h2 hf (ih _ _ (by omega) (by omega) (by omega) (by omega) ?_)
      intro env
      rw [← h.eval_lo h2 hf env, ← h.eval_hi h2 hf env, heq, heq, h.eval_update hg hlevel,
        h.eval_update hg hlevel]
    intro f g hfN hgN hf hg heq
    have hterm : ∀ n < 2, m.level n = m.levels := h.level_terminal
    rcases lt_or_ge f 2 with hf2 | hf2 <;> rcases lt_or_ge g 2 with hg2 | hg2
    · have := heq (fun _ => false)
      interval_cases f <;> interval_cases g <;> simp_all
    · exact absurd (hupper g f hgN hg hf hg2 (by rw [hterm f hf2]; exact h.level_lt hg2 hg)
        fun env => (heq env).symm) id
    · exact absurd (hupper f g hfN hf hg hf2 (by rw [hterm g hg2]; exact h.level_lt hf2 hf)
        heq) id
    · rcases lt_trichotomy (m.level f) (m.level g) with hl | hl | hl
      · exact absurd (hupper f g hfN hf hg hf2 hl heq) id
      · obtain ⟨hflo, hfhi⟩ := h.child_lt f hf2 hf
        obtain ⟨hglo, hghi⟩ := h.child_lt g hg2 hg
        refine h.unique f g hf2 hf hg2 hg hl ?_ ?_
        · refine ih _ _ (by omega) (by omega) (by omega) (by omega) fun env => ?_
          rw [← h.eval_lo hf2 hf env, ← h.eval_lo hg2 hg env, heq, hl]
        · refine ih _ _ (by omega) (by omega) (by omega) (by omega) fun env => ?_
          rw [← h.eval_hi hf2 hf env, ← h.eval_hi hg2 hg env, heq, hl]
      · exact absurd (hupper g f hgN hg hf hg2 hl fun env => (heq env).symm) id

/-! ## The invariant of the manager -/

/-- Some assignment that agrees with `env` outside the levels `quant` marks satisfies `F`. -/
def ExistsOver (quant : ℕ → Bool) (F : (ℕ → Bool) → Prop) (env : ℕ → Bool) : Prop :=
  ∃ env', (∀ i, quant i = false → env' i = env i) ∧ F env'

/-- The operations whose results the computed table remembers. -/
inductive BddOp
  | not (f : ℕ)
  | and (f g : ℕ)
  | exists (f tag : ℕ)

def BddOp.key : BddOp → ℕ
  | .not f => crBddKey 2 f 0
  | .and f g => crBddKey 1 f g
  | .exists f tag => crBddKey 3 f tag

/-- The operands are handles and the tag fits its field of the key. -/
def BddOp.Valid (m : CrBdd) : BddOp → Prop
  | .not f => f < m.count
  | .and f g => f < m.count ∧ g < m.count
  | .exists f tag => f < m.count ∧ tag < 2 ^ 31

/-- The function the result should have.  `quantOf` says which levels each tag stands for. -/
def BddOp.fn (quantOf : ℕ → ℕ → Bool) (m : CrBdd) : BddOp → (ℕ → Bool) → Prop
  | .not f => fun env => ¬m.eval env f = true
  | .and f g => fun env => m.eval env f = true ∧ m.eval env g = true
  | .exists f tag => ExistsOver (quantOf tag) (fun env => m.eval env f = true)

/-- A level the result lies at or below. -/
def BddOp.top (m : CrBdd) : BddOp → ℕ
  | .not f => m.level f
  | .and f g => min (m.level f) (m.level g)
  | .exists f _ => m.level f

/-- `r` is a right result for `key`. -/
def CrBdd.Entry (quantOf : ℕ → ℕ → Bool) (m : CrBdd) (key r : ℕ) : Prop :=
  ∃ op : BddOp, op.key = key ∧ op.Valid m ∧ r < m.count ∧
    (∀ env, m.eval env r = true ↔ op.fn quantOf m env) ∧ op.top m ≤ m.level r

/-- The invariant of the manager. -/
structure CrBdd.Wf (quantOf : ℕ → ℕ → Bool) (m : CrBdd) : Prop extends m.Reduced where
  indexed : Indexed m.table m.tableCap (fun n => crBddHash (m.level n) (m.lo n) (m.hi n)) 2 m.count
  load : m.count * 2 ≤ m.tableCap
  count_le : m.count ≤ crNodeMax
  cache : ∀ s, m.cacheKey s ≠ 0 → m.Entry quantOf (m.cacheKey s) (m.cacheVal s)

/-- `m'` has every node of `m`; an overflow of `m` is still flagged in `m'`. -/
structure CrBdd.Extends (m m' : CrBdd) : Prop where
  levels : m'.levels = m.levels
  count : m.count ≤ m'.count
  level : ∀ n < m.count, m'.level n = m.level n
  lo : ∀ n < m.count, m'.lo n = m.lo n
  hi : ∀ n < m.count, m'.hi n = m.hi n
  overflow : m'.overflow = 0 → m.overflow = 0

lemma CrBdd.Extends.refl (m : CrBdd) : m.Extends m :=
  ⟨rfl, le_rfl, fun _ _ => rfl, fun _ _ => rfl, fun _ _ => rfl, id⟩

lemma CrBdd.Extends.trans {m m' m'' : CrBdd} (h : m.Extends m') (h' : m'.Extends m'') :
    m.Extends m'' where
  levels := h'.levels.trans h.levels
  count := h.count.trans h'.count
  level := fun n hn => (h'.level n (hn.trans_le h.count)).trans (h.level n hn)
  lo := fun n hn => (h'.lo n (hn.trans_le h.count)).trans (h.lo n hn)
  hi := fun n hn => (h'.hi n (hn.trans_le h.count)).trans (h.hi n hn)
  overflow := fun ho => h.overflow (h'.overflow ho)

def bddGrowth (quantOf : ℕ → ℕ → Bool) : Growth CrBdd where
  Inv := CrBdd.Wf quantOf
  le := CrBdd.Extends
  refl := CrBdd.Extends.refl
  trans := CrBdd.Extends.trans

/-- A handle keeps its function when the manager grows. -/
lemma CrBdd.Extends.eval (h : m.Extends m') (hm : m.Reduced) (env : ℕ → Bool) :
    ∀ n < m.count, m'.eval env n = m.eval env n := by
  intro n
  induction n using Nat.strong_induction_on with
  | _ n ih =>
    intro hlt
    rcases lt_or_ge n 2 with hn | hn
    · interval_cases n <;> simp
    · obtain ⟨hlo, hhi⟩ := hm.child_lt n hn hlt
      have hlt' : m'.lo n < n ∧ m'.hi n < n := by
        rw [h.lo n hlt, h.hi n hlt]
        exact ⟨hlo, hhi⟩
      rw [hm.eval_node env hn hlt, m'.eval_node env hn hlt', h.lo n hlt, h.hi n hlt,
        h.level n hlt, ih _ hlo (by omega), ih _ hhi (by omega)]

/-- Growing changes neither the meaning nor the level of an operation on old handles. -/
lemma BddOp.Valid.mono (hop : op.Valid m) (quantOf : ℕ → ℕ → Bool)
    (h : m.Extends m') (hm : m.Reduced) :
    op.Valid m' ∧ (∀ env, op.fn quantOf m' env ↔ op.fn quantOf m env) ∧ op.top m' = op.top m := by
  have hc := h.count
  cases op with
  | not f =>
    exact ⟨hop.trans_le hc, fun env => by simp only [BddOp.fn, h.eval hm env f hop], h.level f hop⟩
  | and f g =>
    refine ⟨⟨hop.1.trans_le hc, hop.2.trans_le hc⟩, fun env => ?_, ?_⟩
    · simp only [BddOp.fn, h.eval hm env f hop.1, h.eval hm env g hop.2]
    · simp only [BddOp.top, h.level f hop.1, h.level g hop.2]
  | «exists» f tag =>
    refine ⟨⟨hop.1.trans_le hc, hop.2⟩, fun env => ?_, h.level f hop.1⟩
    simp only [BddOp.fn, ExistsOver, h.eval hm _ f hop.1]

lemma CrBdd.Entry.mono {quantOf : ℕ → ℕ → Bool} {key : ℕ} (he : m.Entry quantOf key r)
    (h : m.Extends m') (hm : m.Reduced) : m'.Entry quantOf key r := by
  obtain ⟨op, hkey, hop, hr, heval, hlevel⟩ := he
  obtain ⟨hop', hfn, htop⟩ := hop.mono quantOf h hm
  refine ⟨op, hkey, hop', hr.trans_le h.count, fun env => ?_, by rwa [htop, h.level r hr]⟩
  rw [h.eval hm env r hr, heval, hfn]

/-- Handle `r` is a handle of `m` and, while no overflow is flagged, has the function `F` and
a level at or below `lv`. -/
def Denotes (quantOf : ℕ → ℕ → Bool) (m : CrBdd) (r : ℕ) (F : (ℕ → Bool) → Prop) (lv : ℕ) : Prop :=
  r < m.count ∧ m.Wf quantOf ∧
    (m.overflow = 0 → (∀ env, m.eval env r = true ↔ F env) ∧ lv ≤ m.level r)

variable {quantOf : ℕ → ℕ → Bool} {F G : (ℕ → Bool) → Prop}

lemma Denotes.mono (hr : Denotes quantOf m r F lv) (h : m.Extends m')
    (hm' : m'.Wf quantOf) : Denotes quantOf m' r F lv := by
  obtain ⟨hlt, hm, hF⟩ := hr
  refine ⟨hlt.trans_le h.count, hm', fun ho => ?_⟩
  obtain ⟨heval, hlevel⟩ := hF (h.overflow ho)
  refine ⟨fun env => ?_, by rwa [h.level r hlt]⟩
  rw [h.eval hm.toReduced env r hlt]
  exact heval env

lemma Denotes.congr (hr : Denotes quantOf m r F lv) (hFG : ∀ env, F env ↔ G env) :
    Denotes quantOf m r G lv :=
  ⟨hr.1, hr.2.1, fun ho => ⟨fun env => ((hr.2.2 ho).1 env).trans (hFG env), (hr.2.2 ho).2⟩⟩

lemma Denotes.weaken {lv' : ℕ} (hr : Denotes quantOf m r F lv) (hle : lv' ≤ lv) :
    Denotes quantOf m r F lv' :=
  ⟨hr.1, hr.2.1, fun ho => ⟨(hr.2.2 ho).1, hle.trans (hr.2.2 ho).2⟩⟩

/-- Every handle denotes its own function. -/
lemma CrBdd.Wf.denotes (hm : m.Wf quantOf) (hf : f < m.count) :
    Denotes quantOf m f (fun env => m.eval env f = true) (m.level f) :=
  ⟨hf, hm, fun _ => ⟨fun _ => Iff.rfl, le_rfl⟩⟩

/-- After an overflow any handle will do. -/
lemma CrBdd.Wf.denotes_overflow (hm : m.Wf quantOf) (ho : m.overflow ≠ 0)
    (hf : f < m.count) (lv : ℕ) : Denotes quantOf m f F lv :=
  ⟨hf, hm, fun h => absurd h ho⟩

/-! ## Making nodes -/

lemma crBddInit_wf (quantOf : ℕ → ℕ → Bool) (levels limit : ℕ) :
    (crBddInit levels limit).Wf quantOf where
  two_le := le_rfl
  level_terminal := fun _ _ => rfl
  child_lt := by simp only [crBddInit]; omega
  children_ne := by simp only [crBddInit]; omega
  ordered := by simp only [crBddInit]; omega
  unique := by simp only [crBddInit]; omega
  indexed := indexed_empty _ _ (by omega)
  load := by simp [crBddInit]
  count_le := by simp [crBddInit, crNodeMax]
  cache := by simp [crBddInit]

/-- Neither the tables nor the counters take part in the meaning of the nodes. -/
lemma CrBdd.Reduced.of_nodes (h : m.Reduced) (hlevels : m'.levels = m.levels)
    (hcount : m'.count = m.count) (hlevel : m'.level = m.level) (hlo : m'.lo = m.lo)
    (hhi : m'.hi = m.hi) : m'.Reduced := by
  constructor <;> simp only [hlevels, hcount, hlevel, hlo, hhi]
  exacts [h.two_le, h.level_terminal, h.child_lt, h.children_ne, h.ordered, h.unique]

lemma CrBdd.extends_of_nodes (hlevels : m'.levels = m.levels)
    (hcount : m'.count = m.count) (hlevel : m'.level = m.level) (hlo : m'.lo = m.lo)
    (hhi : m'.hi = m.hi) (ho : m'.overflow = 0 → m.overflow = 0) : m.Extends m' :=
  ⟨hlevels, hcount.ge, fun _ _ => by rw [hlevel], fun _ _ => by rw [hlo],
    fun _ _ => by rw [hhi], ho⟩

/-- Growing the unique table keeps every node filed; the computed table is kept or emptied. -/
lemma crBddRehash_wf (h : m.Reduced) (hload : m.count ≤ m.tableCap) (hcount : m.count ≤ crNodeMax)
    (hcache : ∀ s, m.cacheKey s ≠ 0 → m.Entry quantOf (m.cacheKey s) (m.cacheVal s)) :
    (crBddRehash m).Wf quantOf := by
  have htwo := h.two_le
  have hidx := Indexed.reinsert (m.tableCap * 2)
    (fun n => crBddHash (m.level n) (m.lo n) (m.hi n)) (show 0 < 2 by omega) htwo (by omega)
  have hext : ∀ m' : CrBdd, m'.levels = m.levels → m'.count = m.count → m'.level = m.level →
      m'.lo = m.lo → m'.hi = m.hi → m'.overflow = m.overflow → m.Extends m' :=
    fun m' h1 h2 h3 h4 h5 h6 => m.extends_of_nodes h1 h2 h3 h4 h5 (fun ho => h6 ▸ ho)
  unfold crBddRehash
  dsimp only
  split_ifs with hgrow
  · exact ⟨h.of_nodes rfl rfl rfl rfl rfl, hidx, by simp only [crBddCacheReset]; omega, hcount,
      by simp [crBddCacheReset]⟩
  · refine ⟨h.of_nodes rfl rfl rfl rfl rfl, hidx, by dsimp only; omega, hcount, ?_⟩
    exact fun s hs => (hcache s hs).mono (hext _ rfl rfl rfl rfl rfl rfl) h

/-- What the rehash leaves alone. -/
lemma crBddRehash_nodes (m : CrBdd) :
    (crBddRehash m).levels = m.levels ∧ (crBddRehash m).count = m.count ∧
      (crBddRehash m).level = m.level ∧ (crBddRehash m).lo = m.lo ∧
      (crBddRehash m).hi = m.hi ∧ (crBddRehash m).overflow = m.overflow := by
  unfold crBddRehash
  dsimp only
  split_ifs <;> simp [crBddCacheReset]

/-- Appending a node whose children differ and lie on lower levels, and whose triple no node
has yet, filed where its search ended. -/
lemma crBddAppend_spec (hm : m.Wf quantOf) {k : ℕ} (hlo : lo < m.count)
    (hhi : hi < m.count) (hne : lo ≠ hi) (hllo : l < m.level lo) (hlhi : l < m.level hi)
    (hk : k < m.tableCap) (hvacant : m.table ((crBddHash l lo hi + k) % m.tableCap) = 0)
    (hbefore : ∀ j < k, m.table ((crBddHash l lo hi + j) % m.tableCap) ≠ 0)
    (hnew : ∀ n, 2 ≤ n → n < m.count → ¬(m.level n = l ∧ m.lo n = lo ∧ m.hi n = hi))
    (hroom : m.count < crNodeMax) :
    let m' := crBddAppend m ((crBddHash l lo hi + k) % m.tableCap) l lo hi
    m'.Wf quantOf ∧ m.Extends m' ∧ m'.count = m.count + 1 ∧ m'.level m.count = l ∧
      m'.lo m.count = lo ∧ m'.hi m.count = hi := by
  have htwo := hm.two_le
  have hload := hm.load
  set m₁ : CrBdd := { m with
    level := update m.level m.count l
    lo := update m.lo m.count lo
    hi := update m.hi m.count hi
    table := update m.table ((crBddHash l lo hi + k) % m.tableCap) m.count
    count := m.count + 1 } with hm₁
  have hlevel : ∀ n < m.count, m₁.level n = m.level n := fun n hn => update_of_ne (by omega) _ _
  have hlos : ∀ n < m.count, m₁.lo n = m.lo n := fun n hn => update_of_ne (by omega) _ _
  have hhis : ∀ n < m.count, m₁.hi n = m.hi n := fun n hn => update_of_ne (by omega) _ _
  have hlevel' : m₁.level m.count = l := update_self _ _ _
  have hlo' : m₁.lo m.count = lo := update_self _ _ _
  have hhi' : m₁.hi m.count = hi := update_self _ _ _
  have hext : m.Extends m₁ := ⟨rfl, Nat.le_succ _, hlevel, hlos, hhis, id⟩
  have hcases : ∀ n, n < m₁.count → n < m.count ∨ n = m.count := by
    intro n hn
    simp only [hm₁] at hn
    omega
  have hred : m₁.Reduced := by
    refine ⟨by simp only [hm₁]; omega, ?_, ?_, ?_, ?_, ?_⟩
    · intro n hn
      rw [hlevel n (by omega)]
      exact hm.level_terminal n hn
    · intro n h2 hn
      rcases hcases n hn with hn | rfl
      · rw [hlos n hn, hhis n hn]
        exact hm.child_lt n h2 hn
      · rw [hlo', hhi']
        exact ⟨hlo, hhi⟩
    · intro n h2 hn
      rcases hcases n hn with hn | rfl
      · rw [hlos n hn, hhis n hn]
        exact hm.children_ne n h2 hn
      · rw [hlo', hhi']
        exact hne
    · intro n h2 hn
      rcases hcases n hn with hn | rfl
      · obtain ⟨h3, h4⟩ := hm.child_lt n h2 hn
        rw [hlos n hn, hhis n hn, hlevel n hn, hlevel _ (h3.trans hn), hlevel _ (h4.trans hn)]
        exact hm.ordered n h2 hn
      · rw [hlo', hhi', hlevel', hlevel _ hlo, hlevel _ hhi]
        exact ⟨hllo, hlhi⟩
    · intro n n' h2 hn h2' hn' he1 he2 he3
      rcases hcases n hn with hn | rfl <;> rcases hcases n' hn' with hn' | rfl
      · rw [hlevel n hn, hlevel n' hn'] at he1
        rw [hlos n hn, hlos n' hn'] at he2
        rw [hhis n hn, hhis n' hn'] at he3
        exact hm.unique n n' h2 hn h2' hn' he1 he2 he3
      · rw [hlevel n hn, hlevel'] at he1
        rw [hlos n hn, hlo'] at he2
        rw [hhis n hn, hhi'] at he3
        exact absurd ⟨he1, he2, he3⟩ (hnew n h2 hn)
      · rw [hlevel n' hn', hlevel'] at he1
        rw [hlos n' hn', hlo'] at he2
        rw [hhis n' hn', hhi'] at he3
        exact absurd ⟨he1.symm, he2.symm, he3.symm⟩ (hnew n' h2' hn')
      · rfl
  have hcache : ∀ s, m₁.cacheKey s ≠ 0 → m₁.Entry quantOf (m₁.cacheKey s) (m₁.cacheVal s) :=
    fun s hs => (hm.cache s hs).mono hext hm.toReduced
  have hhash : crBddHash (m₁.level m.count) (m₁.lo m.count) (m₁.hi m.count) = crBddHash l lo hi := by
    rw [hlevel', hlo', hhi']
  rw [crBddAppend, ← hm₁]
  dsimp only
  by_cases hbig : m₁.count * 2 > m₁.tableCap
  · rw [if_pos hbig]
    obtain ⟨e1, e2, e3, e4, e5, e6⟩ := crBddRehash_nodes m₁
    refine ⟨crBddRehash_wf hred (by simp only [hm₁]; omega) (by simp only [hm₁]; omega) hcache,
      hext.trans (m₁.extends_of_nodes e1 e2 e3 e4 e5 (fun ho => e6 ▸ ho)), e2, ?_, ?_, ?_⟩
    · rw [e3, hlevel']
    · rw [e4, hlo']
    · rw [e5, hhi']
  · rw [if_neg hbig]
    have hold : Indexed m.table m.tableCap
        (fun n => crBddHash (m₁.level n) (m₁.lo n) (m₁.hi n)) 2 m.count := by
      refine hm.indexed.congr_hash ?_
      intro n _ hn
      simp only [hlevel n hn, hlos n hn, hhis n hn]
    have hidx := hold.insert htwo hk (by simpa only [hhash] using hvacant)
      (by simpa only [hhash] using hbefore)
    refine ⟨⟨hred, by simpa only [hhash] using hidx, ?_, ?_, hcache⟩, hext, rfl, hlevel', hlo', hhi'⟩
    · omega
    · simp only [hm₁]
      omega

lemma wp_crBddIntern (hlo : lo < m.count) (hhi : hi < m.count) (hne : lo ≠ hi)
    (hllo : l < m.level lo) (hlhi : l < m.level hi) :
    (bddGrowth quantOf).wp (crBddIntern l lo hi) m (fun r m' => Denotes quantOf m' r
      (fun env => if env l = true then m.eval env hi = true else m.eval env lo = true) l) := by
  intro hm
  have htwo := hm.two_le
  have hload : m.count - 2 < m.tableCap := by
    have := hm.load
    omega
  rcases hm.indexed.probe_cases hload (fun n => m.level n == l && m.lo n == lo && m.hi n == hi)
      (crBddHash l lo hi) with ⟨n, h1, h2, hacc, hp⟩ | ⟨k, hk, hvacant, hbefore, hp, hnone⟩
  · simp only [Bool.and_eq_true, beq_iff_eq] at hacc
    rw [crBddIntern, hp]
    refine ⟨hm, CrBdd.Extends.refl m, h2, hm, fun _ => ⟨fun env => ?_, hacc.1.1.ge⟩⟩
    rw [hm.eval_node env h1 h2, hacc.1.1, hacc.1.2, hacc.2]
    beta_reduce
    split_ifs <;> rfl
  · rw [crBddIntern, hp]
    dsimp only
    split_ifs with hlimit
    · have hred : CrBdd.Reduced { m with overflow := crBddOverNodes } :=
        hm.toReduced.of_nodes rfl rfl rfl rfl rfl
      have hext : m.Extends { m with overflow := crBddOverNodes } :=
        m.extends_of_nodes rfl rfl rfl rfl rfl (by simp [crBddOverNodes])
      have hwf : CrBdd.Wf quantOf { m with overflow := crBddOverNodes } :=
        ⟨hred, hm.indexed, hm.load, hm.count_le, fun s hs => (hm.cache s hs).mono hext hm.toReduced⟩
      exact ⟨hwf, hext, hwf.denotes_overflow (by simp [crBddOverNodes]) (by dsimp only; omega) l⟩
    · have hnew : ∀ n, 2 ≤ n → n < m.count → ¬(m.level n = l ∧ m.lo n = lo ∧ m.hi n = hi) := by
        rintro n h1 h2 ⟨rfl, rfl, rfl⟩
        have := hnone n h1 h2 rfl
        simp at this
      obtain ⟨hwf, hext, hcount, el, elo, ehi⟩ := crBddAppend_spec hm hlo hhi hne hllo hlhi hk
        hvacant hbefore hnew (by omega)
      refine ⟨hwf, hext, by simp [hcount], hwf, fun _ => ⟨fun env => ?_, el.ge⟩⟩
      rw [hwf.eval_node env htwo (by omega), el, elo, ehi, hext.eval hm.toReduced env _ hlo,
        hext.eval hm.toReduced env _ hhi]
      beta_reduce
      split_ifs <;> rfl

/-- `crBddMk` is the Shannon combination of two handles on lower levels. -/
lemma wp_crBddMk {l₀ l₁ : ℕ} (hlo : Denotes quantOf m lo F l₀)
    (hhi : Denotes quantOf m hi G l₁) (h₀ : l < l₀) (h₁ : l < l₁) :
    (bddGrowth quantOf).wp (crBddMk l lo hi) m (fun r m' => Denotes quantOf m' r
      (fun env => if env l = true then G env else F env) l) := by
  obtain ⟨hlolt, hm, hF⟩ := hlo
  obtain ⟨hhilt, -, hG⟩ := hhi
  by_cases heq : lo = hi
  · refine wp_of_eq (y := pure hi) (by simp [crBddMk, heq]; rfl) (wp_pure ?_)
    refine ⟨hhilt, hm, fun ho => ?_⟩
    obtain ⟨hF', -⟩ := hF ho
    obtain ⟨hG', hle⟩ := hG ho
    rw [heq] at hF'
    refine ⟨fun env => ?_, by omega⟩
    beta_reduce
    split_ifs
    · exact hG' env
    · exact hF' env
  by_cases ho : m.overflow = 0
  · obtain ⟨hF', hl₀⟩ := hF ho
    obtain ⟨hG', hl₁⟩ := hG ho
    refine wp_of_eq (y := crBddIntern l lo hi) (by simp [crBddMk, heq, ho]) ?_
    refine wp_mono (wp_crBddIntern hlolt hhilt heq (by omega) (by omega)) ?_
    intro r m' _ hr
    refine hr.congr fun env => ?_
    rw [hF', hG']
  · refine wp_of_eq (y := pure 0) (by simp [crBddMk, heq, ho]; rfl) (wp_pure ?_)
    exact hm.denotes_overflow ho (by have := hm.two_le; omega) l

/-! ## The computed table -/

lemma crBddKey_eq {op a b : ℕ} (ha : a < 2 ^ 31) (hb : b < 2 ^ 31) :
    crBddKey op a b = op * 2 ^ 62 + a * 2 ^ 31 + b := by
  have hab : a * 2 ^ 31 + b < 2 ^ 62 := by omega
  rw [crBddKey, Nat.or_assoc, mul_comm a, ← Nat.two_pow_add_eq_or_of_lt hb, mul_comm op,
    ← Nat.two_pow_add_eq_or_of_lt (by omega)]
  omega

/-- The key of an operation on handles of `m`, with its fields read back. -/
lemma BddOp.key_inj {op' : BddOp} (hm : m.Wf quantOf) (hop : op.Valid m) (hop' : op'.Valid m)
    (h : op.key = op'.key) : op = op' := by
  have hcount : m.count < 2 ^ 31 := hm.count_le.trans_lt (by decide)
  cases op <;> cases op' <;> simp only [BddOp.Valid] at hop hop' <;>
    simp only [BddOp.key] at h <;>
    rw [crBddKey_eq (by omega) (by omega), crBddKey_eq (by omega) (by omega)] at h <;>
    simp only [BddOp.not.injEq, BddOp.and.injEq, BddOp.exists.injEq, reduceCtorEq] <;> omega

lemma BddOp.key_ne_zero (hm : m.Wf quantOf) (hop : op.Valid m) : op.key ≠ 0 := by
  have hcount : m.count < 2 ^ 31 := hm.count_le.trans_lt (by decide)
  cases op <;> simp only [BddOp.Valid] at hop <;> simp only [BddOp.key] <;>
    rw [crBddKey_eq (by omega) (by omega)] <;> omega

/-- Whatever the computed table answers is right. -/
lemma CrBdd.Wf.lookup (hm : m.Wf quantOf) (hop : op.Valid m)
    (h : crBddLookup m op.key = some r) : Denotes quantOf m r (op.fn quantOf m) (op.top m) := by
  unfold crBddLookup at h
  split_ifs at h with hkey
  obtain ⟨op', hkey', hop', hr, heval, hlevel⟩ :=
    hm.cache _ (by rw [hkey]; exact BddOp.key_ne_zero hm hop)
  obtain rfl : op' = op := BddOp.key_inj hm hop' hop (hkey'.trans hkey)
  cases h
  exact ⟨hr, hm, fun _ => ⟨heval, hlevel⟩⟩

lemma wp_crBddStep : (bddGrowth quantOf).wp crBddStep m (fun go m' => go = (m'.overflow == 0)) := by
  intro hm
  have hext : m.Extends (crBddStep m).2 := by
    refine m.extends_of_nodes rfl rfl rfl rfl rfl fun ho => ?_
    simp only [crBddStep] at ho
    split_ifs at ho with hlimit
    · exact hlimit.2
    · exact ho
  refine ⟨⟨hm.toReduced.of_nodes rfl rfl rfl rfl rfl, hm.indexed, hm.load, hm.count_le, ?_⟩,
    hext, rfl⟩
  exact fun s hs => (hm.cache s hs).mono hext hm.toReduced

lemma wp_crBddStore (hop : op.Valid m) (hr : Denotes quantOf m r (op.fn quantOf m) (op.top m)) :
    (bddGrowth quantOf).wp (crBddStore op.key r) m
      (fun _ m' => Denotes quantOf m' r (op.fn quantOf m) (op.top m)) := by
  intro hm
  unfold crBddStore
  split_ifs with ho
  · obtain ⟨hlt, -, hfn⟩ := hr
    obtain ⟨heval, hlevel⟩ := hfn ho
    set m' : CrBdd := { m with
      cacheKey := update m.cacheKey (crBddSlot m op.key) op.key
      cacheVal := update m.cacheVal (crBddSlot m op.key) r } with hm'
    have hext : m.Extends m' := m.extends_of_nodes rfl rfl rfl rfl rfl id
    have hwf : m'.Wf quantOf := by
      refine ⟨hm.toReduced.of_nodes rfl rfl rfl rfl rfl, hm.indexed, hm.load, hm.count_le, ?_⟩
      intro s hs
      by_cases hslot : s = crBddSlot m op.key
      · subst hslot
        have hentry : m.Entry quantOf op.key r := ⟨op, rfl, hop, hlt, heval, hlevel⟩
        simpa only [hm', update_self] using hentry.mono hext hm.toReduced
      · simp only [hm', update_of_ne hslot] at hs ⊢
        exact (hm.cache s hs).mono hext hm.toReduced
    exact ⟨hwf, hext, Denotes.mono ⟨hlt, hm, hfn⟩ hext hwf⟩
  · exact ⟨hm, CrBdd.Extends.refl m, hr⟩

/-- The memo frame computes an operation if its body does, from any grown manager. -/
lemma wp_crBddMemo (op : BddOp) {compute : CrBdd → StateM CrBdd ℕ} (hop : op.Valid m)
    (hbody : ∀ m', m.Extends m' → m'.Wf quantOf → m'.overflow = 0 → op.Valid m' →
      (bddGrowth quantOf).wp (compute m') m'
        (fun r m'' => Denotes quantOf m'' r (op.fn quantOf m') (op.top m'))) :
    (bddGrowth quantOf).wp (crBddMemo op.key compute) m
      (fun r m' => Denotes quantOf m' r (op.fn quantOf m) (op.top m)) := by
  refine wp_of_inv fun hm => ?_
  unfold crBddMemo
  apply wp_bind
  refine wp_mono wp_crBddStep ?_
  rintro go m₁ hext hgo -
  refine wp_of_inv fun hm₁ => ?_
  obtain ⟨hop₁, hfn, htop⟩ := hop.mono quantOf hext hm.toReduced
  have hback : ∀ {r m₂}, Denotes quantOf m₂ r (op.fn quantOf m₁) (op.top m₁) →
      Denotes quantOf m₂ r (op.fn quantOf m) (op.top m) :=
    fun hr => (hr.congr hfn).weaken htop.ge
  by_cases ho : m₁.overflow = 0
  · rw [hgo, ho]
    apply wp_bind
    refine wp_get fun _ => ?_
    cases hlook : crBddLookup m₁ op.key with
    | some => exact wp_pure (hback (hm₁.lookup hop₁ hlook))
    | none =>
      apply wp_bind
      refine wp_mono (hbody m₁ hext hm₁ ho hop₁) ?_
      intro r m₂ hext₂ hr _
      obtain ⟨hop₂, hfn₂, htop₂⟩ := hop₁.mono quantOf hext₂ hm₁.toReduced
      apply wp_bind
      refine wp_mono (wp_crBddStore hop₂
        ((hr.congr fun env => (hfn₂ env).symm).weaken htop₂.le)) ?_
      intro _ m₃ _ hr₃ _
      exact wp_pure (hback ((hr₃.congr hfn₂).weaken htop₂.ge))
  · rw [hgo, beq_false_of_ne ho]
    exact wp_pure (hm₁.denotes_overflow ho (by have := hm₁.two_le; omega) _)

end Lapligence.Constraints
