import Mathlib.Data.Nat.Bitwise
import Mathlib.Data.Set.Card
import Mathlib.Tactic.Ring

/-!
# Counting and unranking the models of a decision tree

A `DTree` decides a property of an assignment by reading the bits of some levels, from the top down.
Over levels `0, …, L - 1` an ordered tree can skip levels, and each skipped level doubles the number
of models below it: `count` is the number of models from the tree's own top level on and `size` the
number from a given level on.

`walk` turns a rank into a model: the levels skipped above a node take the low bits of the rank, and
what is left is compared with the number of models of the lower branch.  `rank` is its inverse, so
`walk` goes through the models one by one (`bijOn_walk`).

Diagrams that share their subtrees are stored in a `Table`, which `Table.tree` unfolds.
-/

namespace Lapligence.DecisionTrees

open Function Nat

/-- A decision tree over numbered levels. -/
inductive DTree
  | leaf (value : Bool)
  | node (level : ℕ) (lo hi : DTree)
  deriving DecidableEq

namespace DTree

/-- The value of the tree under an assignment. -/
def eval (env : ℕ → Bool) : DTree → Bool
  | leaf b => b
  | node l lo hi => if env l then hi.eval env else lo.eval env

section Levels

variable (L : ℕ)

/-- The level a tree reads first; a leaf is below all of them. -/
def top : DTree → ℕ
  | leaf _ => L
  | node l _ _ => l

/-- Levels increase along every branch and stay below `L`. -/
def Ordered : DTree → Prop
  | leaf _ => True
  | node l lo hi => l < lo.top L ∧ l < hi.top L ∧ lo.Ordered ∧ hi.Ordered

/-- The number of models over the levels from the top one on. -/
def count : DTree → ℕ
  | leaf b => b.toNat
  | node l lo hi => lo.count * 2 ^ (lo.top L - l - 1) + hi.count * 2 ^ (hi.top L - l - 1)

/-- The number of models over the levels from `level` on. -/
def size (level : ℕ) (t : DTree) : ℕ := t.count L * 2 ^ (t.top L - level)

end Levels

variable {L level r : ℕ} {t : DTree} {env env' : ℕ → Bool}

lemma size_node (level l : ℕ) (lo hi : DTree) : (node l lo hi).size L level =
    (lo.size L (l + 1) + hi.size L (l + 1)) * 2 ^ (l - level) := rfl

lemma Ordered.top_le (h : t.Ordered L) : t.top L ≤ L := by
  induction t with
  | leaf => exact le_rfl
  | node l lo hi ihlo =>
    obtain ⟨hlo, -, holo, -⟩ := h
    exact (hlo.trans_le (ihlo holo)).le

lemma eval_congr (h : t.Ordered L)
    (heq : ∀ i, t.top L ≤ i → i < L → env i = env' i) : t.eval env = t.eval env' := by
  induction t with
  | leaf => rfl
  | node l lo hi ihlo ihhi =>
    obtain ⟨hlo, hhi, holo, hohi⟩ := h
    have hle := hlo.trans_le holo.top_le
    rw [eval, eval, heq l le_rfl hle, ihlo holo fun i hi hL => heq i (hlo.le.trans hi) hL,
      ihhi hohi fun i hi hL => heq i (hhi.le.trans hi) hL]

/-- There are no more models than assignments. -/
lemma count_le (h : t.Ordered L) : t.count L ≤ 2 ^ (L - t.top L) := by
  induction t with
  | leaf b => simpa [count, top] using Bool.toNat_le b
  | node l lo hi ihlo ihhi =>
    obtain ⟨hlo, hhi, holo, hohi⟩ := h
    have hbranch : ∀ t : DTree, l < t.top L → t.top L ≤ L → t.count L ≤ 2 ^ (L - t.top L) →
        t.count L * 2 ^ (t.top L - l - 1) ≤ 2 ^ (L - l - 1) := by
      intro t hl hL hle
      calc t.count L * 2 ^ (t.top L - l - 1)
          ≤ 2 ^ (L - t.top L) * 2 ^ (t.top L - l - 1) := mul_le_mul_right _ hle
        _ = 2 ^ (L - l - 1) := by rw [← pow_add]; congr 1; omega
    have hl := hlo.trans_le holo.top_le
    have hsum := Nat.add_le_add (hbranch lo hlo holo.top_le (ihlo holo))
      (hbranch hi hhi hohi.top_le (ihhi hohi))
    rw [count, top, show L - l = L - l - 1 + 1 by omega, pow_succ]
    omega

lemma size_le (h : t.Ordered L) (hlevel : level ≤ t.top L) : t.size L level ≤ 2 ^ (L - level) := by
  have htop := h.top_le
  calc t.size L level ≤ 2 ^ (L - t.top L) * 2 ^ (t.top L - level) :=
        mul_le_mul_right _ (count_le h)
    _ = 2 ^ (L - level) := by rw [← pow_add]; congr 1; omega

/-! ## From a rank to a model -/

/-- Levels `level, …, level + k - 1` take the low bits of `r`. -/
def spread (level k r : ℕ) (env : ℕ → Bool) (i : ℕ) : Bool :=
  if level ≤ i ∧ i < level + k then r.testBit (i - level) else env i

/-- The number whose low bits are those of levels `level, …, level + k - 1`. -/
def gather (level k : ℕ) (env : ℕ → Bool) : ℕ := ofBits fun i : Fin k => env (level + i)

lemma gather_lt (level k : ℕ) (env : ℕ → Bool) : gather level k env < 2 ^ k :=
  ofBits_lt_two_pow _

lemma gather_congr {level k : ℕ} {env env' : ℕ → Bool}
    (h : ∀ i, level ≤ i → i < level + k → env i = env' i) :
    gather level k env = gather level k env' := by
  rw [gather, gather]
  congr 1
  funext i
  exact h _ (Nat.le_add_right _ _) (Nat.add_lt_add_left i.isLt _)

lemma gather_spread (level k r : ℕ) (env : ℕ → Bool) :
    gather level k (spread level k r env) = r % 2 ^ k := by
  rw [gather, ← ofBits_testBit]
  congr 1
  funext i
  rw [spread, if_pos ⟨Nat.le_add_right _ _, Nat.add_lt_add_left i.isLt _⟩, Nat.add_sub_cancel_left]

lemma spread_gather {level k r : ℕ} (env : ℕ → Bool) {env' : ℕ → Bool}
    (h : r % 2 ^ k = gather level k env') {i : ℕ} (hi : level ≤ i) (hk : i < level + k) :
    spread level k r env i = env' i := by
  have hlt : i - level < k := by omega
  have hbit : r.testBit (i - level) = (r % 2 ^ k).testBit (i - level) := by
    rw [testBit_mod_two_pow, decide_eq_true hlt, Bool.true_and]
  rw [spread, if_pos ⟨hi, hk⟩, hbit, h, gather, testBit_ofBits_lt _ _ hlt]
  exact congrArg env' (Nat.add_sub_cancel' hi)

lemma spread_outside {level k r i : ℕ} (env : ℕ → Bool) (hi : i < level ∨ level + k ≤ i) :
    spread level k r env i = env i := by
  rw [spread, if_neg (by omega)]

lemma spread_succ (level k r : ℕ) (env : ℕ → Bool) :
    spread level (k + 1) r env = spread (level + 1) k (r / 2) (update env level (r.testBit 0)) := by
  funext i
  rcases lt_trichotomy i level with hlt | rfl | hgt
  · rw [spread_outside env (.inl hlt), spread_outside _ (.inl (by omega)), update_of_ne (by omega)]
  · rw [spread, if_pos (by omega), Nat.sub_self, spread_outside _ (.inl (by omega)), update_self]
  · by_cases hk : i < level + (k + 1)
    · rw [spread, if_pos (by omega), spread, if_pos (by omega), testBit_div_two]
      congr 1
      omega
    · rw [spread_outside env (.inr (by omega)), spread_outside _ (.inr (by omega)),
        update_of_ne (by omega)]

section Levels

variable (L : ℕ)

/-- The model of rank `r` over the levels from `level` on. -/
def walk : DTree → ℕ → ℕ → (ℕ → Bool) → ℕ → Bool
  | leaf _, level, r, env => spread level (L - level) r env
  | node l lo hi, level, r, env =>
    let env := spread level (l - level) r env
    let r := r / 2 ^ (l - level)
    if r < lo.size L (l + 1) then lo.walk (l + 1) r (update env l false)
    else hi.walk (l + 1) (r - lo.size L (l + 1)) (update env l true)

/-- The rank of a model over the levels from `level` on. -/
def rank : DTree → ℕ → (ℕ → Bool) → ℕ
  | leaf _, level, env => gather level (L - level) env
  | node l lo hi, level, env =>
    gather level (l - level) env + 2 ^ (l - level) *
      if env l then lo.size L (l + 1) + hi.rank (l + 1) env else lo.rank (l + 1) env

end Levels

/-- The walk only sets the levels it ranges over. -/
lemma walk_outside (h : t.Ordered L) (hlevel : level ≤ t.top L) {i : ℕ}
    (hi : i < level ∨ L ≤ i) : t.walk L level r env i = env i := by
  induction t generalizing level r env with
  | leaf =>
    rw [top] at hlevel
    exact spread_outside env (by omega)
  | node l lo hi ihlo ihhi =>
    rw [top] at hlevel
    obtain ⟨hlo, hhi, holo, hohi⟩ := h
    have hl := hlo.trans_le holo.top_le
    have hout : ∀ b, update (spread level (l - level) r env) l b i = env i := fun b => by
      rw [update_of_ne (by omega), spread_outside env (by omega)]
    rw [walk]
    split_ifs
    · rw [ihlo holo hlo (by omega), hout]
    · rw [ihhi hohi hhi (by omega), hout]

/-- What is left of a rank after the levels above a node ranks the models of the node. -/
lemma div_lt_sizes {l : ℕ} {lo hi : DTree} (h : r < (node l lo hi).size L level) :
    r / 2 ^ (l - level) < lo.size L (l + 1) + hi.size L (l + 1) := by
  rw [size_node, mul_comm] at h
  exact Nat.div_lt_of_lt_mul h

section Ordered

variable (h : t.Ordered L) (hlevel : level ≤ t.top L)

include h hlevel

/-- **The walk ends in a model.** -/
lemma eval_walk (hr : r < t.size L level) : t.eval (t.walk L level r env) = true := by
  induction t generalizing level r env with
  | leaf b =>
    cases b with
    | false => simp [size, count] at hr
    | true => rfl
  | node l lo hi ihlo ihhi =>
    rw [top] at hlevel
    obtain ⟨hlo, hhi, holo, hohi⟩ := h
    have hq := div_lt_sizes hr
    rw [walk]
    -- the walk below does not come back to level `l`
    split_ifs with hlow
    · rw [eval, walk_outside holo hlo (.inl (lt_succ_self l)), update_self,
        if_neg Bool.false_ne_true]
      exact ihlo holo hlo hlow
    · rw [eval, walk_outside hohi hhi (.inl (lt_succ_self l)), update_self, if_pos rfl]
      exact ihhi hohi hhi (by omega)

lemma rank_congr (heq : ∀ i, level ≤ i → i < L → env i = env' i) :
    t.rank L level env = t.rank L level env' := by
  induction t generalizing level with
  | leaf =>
    rw [top] at hlevel
    exact gather_congr fun i hi hk => heq i hi (by omega)
  | node l lo hi ihlo ihhi =>
    rw [top] at hlevel
    obtain ⟨hlo, hhi, holo, hohi⟩ := h
    have hl := hlo.trans_le holo.top_le
    have hbelow : ∀ i, l + 1 ≤ i → i < L → env i = env' i := fun i hi => heq i (by omega)
    rw [rank, rank, heq l hlevel hl, ihlo holo hlo hbelow, ihhi hohi hhi hbelow,
      gather_congr fun i hi hk => heq i hi (by omega)]

lemma rank_lt (heval : t.eval env = true) : t.rank L level env < t.size L level := by
  induction t generalizing level with
  | leaf =>
    rw [eval] at heval
    rw [heval, rank, size, count, top, Bool.toNat_true, one_mul]
    exact gather_lt _ _ _
  | node l lo hi ihlo ihhi =>
    obtain ⟨hlo, hhi, holo, hohi⟩ := h
    have hlow := gather_lt level (l - level) env
    have hq : (if env l then lo.size L (l + 1) + hi.rank L (l + 1) env
        else lo.rank L (l + 1) env) < lo.size L (l + 1) + hi.size L (l + 1) := by
      rw [eval] at heval
      split_ifs at heval ⊢
      · exact Nat.add_lt_add_left (ihhi hohi hhi heval) _
      · exact (ihlo holo hlo heval).trans_le (le_add_right _ _)
    rw [rank, size_node, mul_comm (_ + _)]
    calc _ < 2 ^ (l - level) + 2 ^ (l - level) * _ := Nat.add_lt_add_right hlow _
      _ = 2 ^ (l - level) * (_ + 1) := by ring
      _ ≤ _ := mul_le_mul_left _ hq

/-- The rank of the walk's result is the rank it started from. -/
lemma rank_walk (hr : r < t.size L level) : t.rank L level (t.walk L level r env) = r := by
  induction t generalizing level r env with
  | leaf b =>
    rw [walk, rank, gather_spread]
    refine mod_eq_of_lt (hr.trans_le ?_)
    exact size_le (t := leaf b) trivial hlevel
  | node l lo hi ihlo ihhi =>
    rw [top] at hlevel
    obtain ⟨hlo, hhi, holo, hohi⟩ := h
    have hq := div_lt_sizes hr
    -- the levels above the node keep the low bits of the rank
    have hgather : ∀ (u : DTree) (q : ℕ) (b : Bool), u.Ordered L → l < u.top L →
        gather level (l - level)
          (u.walk L (l + 1) q (update (spread level (l - level) r env) l b)) =
            r % 2 ^ (l - level) := by
      intro u q b hu htop
      rw [← gather_spread level (l - level) r env]
      refine gather_congr fun i hi hk => ?_
      rw [walk_outside hu htop (.inl (by omega)), update_of_ne (by omega)]
    rw [walk]
    split_ifs with hlow
    · rw [rank, hgather lo _ _ holo hlo, walk_outside holo hlo (.inl (lt_succ_self l)),
        update_self, if_neg Bool.false_ne_true, ihlo holo hlo hlow, mod_add_div]
    · have hrest : r / 2 ^ (l - level) - lo.size L (l + 1) < hi.size L (l + 1) := by omega
      rw [rank, hgather hi _ _ hohi hhi, walk_outside hohi hhi (.inl (lt_succ_self l)),
        update_self, if_pos rfl, ihhi hohi hhi hrest, Nat.add_sub_cancel' (Nat.le_of_not_lt hlow),
        mod_add_div]

/-- The walk from the rank of a model ends in that model. -/
lemma walk_rank (heval : t.eval env' = true) {i : ℕ} (hge : level ≤ i) (hL : i < L) :
    t.walk L level (t.rank L level env') env i = env' i := by
  induction t generalizing level env with
  | leaf =>
    exact spread_gather env (mod_eq_of_lt (gather_lt _ _ _)) hge (by omega)
  | node l lo hi ihlo ihhi =>
    rw [top] at hlevel
    obtain ⟨hlo, hhi, holo, hohi⟩ := h
    rw [eval] at heval
    have hpos : 0 < 2 ^ (l - level) := Nat.two_pow_pos _
    have hlow := gather_lt level (l - level) env'
    -- below the node the rank is that of the branch, above it the low bits are read back
    have hdown : ∀ (u : DTree) (q v : ℕ), u.Ordered L → l < u.top L →
        q % 2 ^ (l - level) = gather level (l - level) env' →
        (l + 1 ≤ i → ∀ e, u.walk L (l + 1) v e i = env' i) →
        u.walk L (l + 1) v (update (spread level (l - level) q env) l (env' l)) i = env' i := by
      intro u q v hu htop hmod hbelow
      rcases lt_trichotomy i l with hlt | rfl | hgt
      · rw [walk_outside hu htop (.inl (by omega)), update_of_ne (by omega)]
        exact spread_gather env hmod hge (by omega)
      · rw [walk_outside hu htop (.inl (lt_succ_self i)), update_self]
      · exact hbelow hgt _
    rw [walk, rank]
    cases hbit : env' l with
    | false =>
      rw [hbit, if_neg Bool.false_ne_true] at heval
      simp only [Bool.false_eq_true, if_false, add_mul_div_left _ _ hpos,
        div_eq_of_lt hlow, zero_add, if_pos (rank_lt holo hlo heval)]
      rw [← hbit]
      refine hdown lo _ _ holo hlo ?_ fun hbelow e => ihlo holo hlo heval hbelow
      rw [add_mul_mod_self_left, mod_eq_of_lt hlow]
    | true =>
      rw [hbit, if_pos rfl] at heval
      have hnot : ¬lo.size L (l + 1) + hi.rank L (l + 1) env' < lo.size L (l + 1) := by omega
      simp only [if_true, add_mul_div_left _ _ hpos, div_eq_of_lt hlow, zero_add,
        if_neg hnot, Nat.add_sub_cancel_left]
      rw [← hbit]
      refine hdown hi _ _ hohi hhi ?_ fun hbelow e => ihhi hohi hhi heval hbelow
      rw [add_mul_mod_self_left, mod_eq_of_lt hlow]

end Ordered

/-- The assignment of all levels given by that of the levels below `L`. -/
def extend (a : Fin L → Bool) (i : ℕ) : Bool := if h : i < L then a ⟨i, h⟩ else false

lemma extend_restrict (env : ℕ → Bool) {i : ℕ} (hi : i < L) :
    extend (fun j : Fin L => env j) i = env i := by
  rw [extend, dif_pos hi]

/-- The rank whose walk ends in a given model. -/
lemma walk_eq_iff (h : t.Ordered L) (env : ℕ → Bool) (hr : r < t.size L 0)
    {a : Fin L → Bool} (ha : t.eval (extend a) = true) :
    (fun i : Fin L => t.walk L 0 r env i) = a ↔ r = t.rank L 0 (extend a) := by
  constructor
  · rintro rfl
    have hsame := @rank_walk L 0 r t env h (zero_le _) hr
    exact hsame.symm.trans
      (rank_congr h (zero_le _) fun i _ hi => (extend_restrict _ hi).symm)
  · rintro rfl
    funext i
    rw [walk_rank h (zero_le _) ha (zero_le _) i.isLt, extend, dif_pos i.isLt]

/-- **Unranking.**  The ranks below the number of models correspond one to one to the models. -/
theorem bijOn_walk (h : t.Ordered L) (env : ℕ → Bool) :
    Set.BijOn (fun r (i : Fin L) => t.walk L 0 r env i) {r | r < t.size L 0}
      {a : Fin L → Bool | t.eval (extend a) = true} := by
  have hmodel : ∀ r < t.size L 0, t.eval (extend fun i : Fin L => t.walk L 0 r env i) = true := by
    intro r hr
    have heval := @eval_walk L 0 r t env h (zero_le _) hr
    exact (eval_congr h fun i _ hL => extend_restrict (t.walk L 0 r env) hL).trans heval
  refine ⟨fun r hr => hmodel r hr, fun r hr r' hr' heq => ?_, fun a ha => ?_⟩
  · have hrank := (walk_eq_iff h env hr (hmodel r' hr')).1 heq
    exact hrank.trans ((walk_eq_iff h env hr' (hmodel r' hr')).1 rfl).symm
  · have hlt := rank_lt h (zero_le _) ha
    exact ⟨_, hlt, (walk_eq_iff h env hlt ha).2 rfl⟩

/-- The number of models. -/
lemma ncard_models (h : t.Ordered L) :
    {a : Fin L → Bool | t.eval (extend a) = true}.ncard = t.size L 0 := by
  have hbij := bijOn_walk h fun _ => false
  have hranks : {r | r < t.size L 0} = (Finset.range (t.size L 0) : Set ℕ) := by
    ext r
    simp
  rw [← hbij.image_eq, hbij.injOn.ncard_image, hranks, Set.ncard_coe_finset, Finset.card_range]

end DTree

/-! ## Trees stored in a table -/

/-- Nodes stored in a table; entries `0` and `1` are the leaves. -/
structure Table where
  level : ℕ → ℕ
  lo : ℕ → ℕ
  hi : ℕ → ℕ

namespace Table

/-- The entries below `count` have their children before them and at later levels. -/
structure Ordered (T : Table) (L count : ℕ) : Prop where
  level_leaf : ∀ n < 2, T.level n = L
  child_lt : ∀ n, 2 ≤ n → n < count → T.lo n < n ∧ T.hi n < n
  level_lt : ∀ n, 2 ≤ n → n < count → T.level n < T.level (T.lo n) ∧ T.level n < T.level (T.hi n)

/-- The tree below an entry.  The test only makes the recursion visibly terminate. -/
def tree (T : Table) (n : ℕ) : DTree :=
  if n < 2 then .leaf (n == 1)
  else if T.lo n < n ∧ T.hi n < n then .node (T.level n) (T.tree (T.lo n)) (T.tree (T.hi n))
  else .leaf false
termination_by n
decreasing_by all_goals omega

variable {T T' : Table} {L count count' n : ℕ}

lemma tree_leaf (T : Table) (hn : n < 2) : T.tree n = .leaf (n == 1) := by
  rw [tree, if_pos hn]

lemma Ordered.tree_node (h : T.Ordered L count) (hn : 2 ≤ n) (hlt : n < count) :
    T.tree n = .node (T.level n) (T.tree (T.lo n)) (T.tree (T.hi n)) := by
  rw [tree, if_neg (by omega), if_pos (h.child_lt n hn hlt)]

lemma Ordered.top_tree (h : T.Ordered L count) (hlt : n < count) :
    (T.tree n).top L = T.level n := by
  rcases lt_or_ge n 2 with hn | hn
  · rw [tree_leaf T hn, h.level_leaf n hn]
    rfl
  · rw [h.tree_node hn hlt]
    rfl

/-- **Induction over the entries**, children first. -/
lemma Ordered.induction (h : T.Ordered L count) {P : ℕ → Prop} (hleaf : ∀ n < 2, P n)
    (hnode : ∀ n, 2 ≤ n → n < count → P (T.lo n) → P (T.hi n) → P n) : ∀ n < count, P n := by
  intro n
  induction n using Nat.strong_induction_on with
  | _ n ih =>
    intro hlt
    rcases lt_or_ge n 2 with hn | hn
    · exact hleaf n hn
    · obtain ⟨hlo, hhi⟩ := h.child_lt n hn hlt
      exact hnode n hn hlt (ih _ hlo (hlo.trans hlt)) (ih _ hhi (hhi.trans hlt))

lemma Ordered.tree_ordered (h : T.Ordered L count) : ∀ n < count, (T.tree n).Ordered L := by
  refine h.induction (fun n hn => ?_) fun n hn hlt hlo hhi => ?_
  · rw [tree_leaf T hn]
    trivial
  · obtain ⟨hclo, hchi⟩ := h.child_lt n hn hlt
    rw [h.tree_node hn hlt]
    refine ⟨?_, ?_, hlo, hhi⟩
    · rw [h.top_tree (hclo.trans hlt)]
      exact (h.level_lt n hn hlt).1
    · rw [h.top_tree (hchi.trans hlt)]
      exact (h.level_lt n hn hlt).2

lemma Ordered.level_le (h : T.Ordered L count) (hlt : n < count) : T.level n ≤ L := by
  rw [← h.top_tree hlt]
  exact (h.tree_ordered n hlt).top_le

/-- A table that holds renumbered copies of the entries of another one has their trees. -/
lemma Ordered.tree_copy (h : T.Ordered L count) (h' : T'.Ordered L count') {S : ℕ → Prop}
    {f : ℕ → ℕ} (hleaf : ∀ n < 2, f n = n)
    (hcopy : ∀ n, 2 ≤ n → S n → 2 ≤ f n ∧ f n < count' ∧ T'.level (f n) = T.level n ∧
      T'.lo (f n) = f (T.lo n) ∧ T'.hi (f n) = f (T.hi n) ∧ S (T.lo n) ∧ S (T.hi n)) :
    ∀ n < count, S n → T'.tree (f n) = T.tree n := by
  refine h.induction (fun n hn _ => ?_) fun n hn hlt hlo hhi hS => ?_
  · rw [hleaf n hn, tree_leaf T hn, tree_leaf T' hn]
  · obtain ⟨hge, hlt', hlevel, hflo, hfhi, hSlo, hShi⟩ := hcopy n hn hS
    rw [h.tree_node hn hlt, h'.tree_node hge hlt', hlevel, hflo, hfhi, hlo hSlo, hhi hShi]

end Table

end Lapligence.DecisionTrees
