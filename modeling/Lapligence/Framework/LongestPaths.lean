import Mathlib.Data.Finset.Card
import Mathlib.Data.List.Chain
import Mathlib.Order.Bounds.Basic

/-!
# Longest paths by relaxation

A graph is a list of edges.  Relaxing an edge raises the height of its source above the height of
its target.  Relaxing all edges in turn, as many times as there are vertices, gives in an acyclic
graph the lengths of the longest paths; on a cycle heights never come to rest.

The two halves of the argument are `realized_relax`, that a height is always the length of some
walk, and `covers_round`, that after `k` rounds all walks of length `k` are accounted for.
-/

universe u

namespace Lapligence.LongestPaths

open Function List

variable {V : Type u}

/-- The edge relation of a list of edges. -/
def Edge (edges : List (V × V)) (a b : V) : Prop := (a, b) ∈ edges

/-- There is a walk of length `n` from `v`. -/
inductive Walk (edges : List (V × V)) : V → ℕ → Prop
  | nil (v : V) : Walk edges v 0
  | cons {a b : V} {n : ℕ} : (a, b) ∈ edges → Walk edges b n → Walk edges a (n + 1)

/-- There is a path of length `n` from `v` to a sink. -/
inductive WalkToSink (edges : List (V × V)) : V → ℕ → Prop
  | sink {v : V} : (∀ w, (v, w) ∉ edges) → WalkToSink edges v 0
  | cons {a b : V} {n : ℕ} : (a, b) ∈ edges → WalkToSink edges b n → WalkToSink edges a (n + 1)

section Walks

variable {edges : List (V × V)} {a b v : V} {n : ℕ}

lemma WalkToSink.walk (h : WalkToSink edges v n) : Walk edges v n := by
  induction h with
  | sink => exact .nil _
  | cons hedge _ ih => exact .cons hedge ih

/-- A walk that cannot be made longer ends in a sink. -/
lemma Walk.toSink (h : Walk edges v n) (hmax : ∀ m, Walk edges v m → m ≤ n) :
    WalkToSink edges v n := by
  induction h with
  | nil =>
    refine .sink fun w hw => ?_
    have := hmax 1 (.cons hw (.nil w))
    omega
  | cons hedge _ ih =>
    refine .cons hedge (ih fun m hm => ?_)
    have := hmax (m + 1) (.cons hedge hm)
    omega

/-- The vertices of a walk, each with an edge to the next. -/
lemma Walk.vertices (h : Walk edges v n) :
    ∃ vs : List V, (v :: vs).IsChain (Edge edges) ∧ vs.length = n := by
  induction h with
  | nil v => exact ⟨[], isChain_singleton v, rfl⟩
  | @cons a b n hedge _ ih =>
    obtain ⟨vs, hchain, hlen⟩ := ih
    exact ⟨b :: vs, isChain_cons_cons.2 ⟨hedge, hchain⟩, by simp [hlen]⟩

/-- Walks of an acyclic graph visit no vertex twice. -/
lemma Walk.lt_card [DecidableEq V] (hacyclic : ∀ v, ¬Relation.TransGen (Edge edges) v v)
    {S : Finset V} (hS : ∀ e ∈ edges, e.1 ∈ S ∧ e.2 ∈ S) (hv : v ∈ S) (h : Walk edges v n) :
    n < S.card := by
  obtain ⟨vs, hchain, rfl⟩ := h.vertices
  have hpairs : (v :: vs).Pairwise (Relation.TransGen (Edge edges)) :=
    (hchain.imp fun _ _ => Relation.TransGen.single).pairwise
  have hnodup : (v :: vs).Nodup := hpairs.imp fun {a b} hab => by
    rintro rfl
    exact hacyclic a hab
  have hmem : ∀ w ∈ v :: vs, w ∈ S := by
    intro w hw
    rcases mem_cons.1 hw with rfl | hw
    · exact hv
    · -- every later vertex is the target of an edge
      have hlater : ∀ (us : List V) (u : V), (u :: us).IsChain (Edge edges) →
          ∀ x ∈ us, x ∈ S := by
        intro us
        induction us with
        | nil => simp
        | cons y us ih =>
          intro u hus x hx
          obtain ⟨hedge, hus⟩ := isChain_cons_cons.1 hus
          rcases mem_cons.1 hx with rfl | hx
          · exact (hS _ hedge).2
          · exact ih y hus x hx
      exact hlater vs v hchain w hw
  calc vs.length < (v :: vs).length := by simp
    _ = (v :: vs).toFinset.card := (toFinset_card_of_nodup hnodup).symm
    _ ≤ S.card := Finset.card_le_card fun w hw => hmem w (mem_toFinset.1 hw)

end Walks

/-! ## Relaxation -/

/-- No edge can be relaxed. -/
def Stable (edges : List (V × V)) (h : V → ℕ) : Prop := ∀ e ∈ edges, h e.2 + 1 ≤ h e.1

section Stable

variable {edges : List (V × V)} {h : V → ℕ} {a b v : V} {n : ℕ}

lemma Stable.walk_le (hs : Stable edges h) (hw : Walk edges v n) : n ≤ h v := by
  induction hw with
  | nil => exact Nat.zero_le _
  | cons hedge _ ih => exact (Nat.succ_le_succ ih).trans (hs _ hedge)

/-- Stable heights fall along edges, so there is no cycle. -/
lemma Stable.acyclic (hs : Stable edges h) (v : V) : ¬Relation.TransGen (Edge edges) v v := by
  have hlt : ∀ {a b}, Relation.TransGen (Edge edges) a b → h b < h a := by
    intro a b hab
    induction hab with
    | single hedge => exact hs _ hedge
    | tail _ hedge ih => exact (hs _ hedge).trans (Nat.le_of_lt ih)
  exact fun hcycle => Nat.lt_irrefl _ (hlt hcycle)

/-- Stable heights that are lengths of walks are the lengths of the longest paths to a sink. -/
lemma Stable.isGreatest (hs : Stable edges h) (hreal : ∀ v, Walk edges v (h v)) (v : V) :
    IsGreatest {n | WalkToSink edges v n} (h v) :=
  ⟨(hreal v).toSink fun _ hm => hs.walk_le hm, fun _ hn => hs.walk_le hn.walk⟩

end Stable

section Relax

variable [DecidableEq V]

/-- Raise the source of an edge above its target. -/
def relax (h : V → ℕ) (e : V × V) : V → ℕ :=
  if h e.1 < h e.2 + 1 then update h e.1 (h e.2 + 1) else h

/-- Relax all edges in turn. -/
def round (edges : List (V × V)) (h : V → ℕ) : V → ℕ := edges.foldl relax h

variable {edges : List (V × V)} {h : V → ℕ} {v : V} {n k : ℕ}

lemma relax_source_le (h : V → ℕ) (e : V × V) : h e.2 + 1 ≤ relax h e e.1 := by
  rw [relax]
  split_ifs with hlt
  · simp
  · omega

lemma le_relax (h : V → ℕ) (e : V × V) (v : V) : h v ≤ relax h e v := by
  rw [relax]
  split_ifs with hlt
  · rcases eq_or_ne v e.1 with rfl | hv
    · rw [update_self]
      omega
    · rw [update_of_ne hv]
  · exact le_rfl

lemma le_foldl_relax (es : List (V × V)) (h : V → ℕ) (v : V) : h v ≤ es.foldl relax h v := by
  induction es generalizing h with
  | nil => exact le_rfl
  | cons e es ih => exact (le_relax h e v).trans (ih _)

/-- Heights stay lengths of walks. -/
lemma realized_relax {e : V × V} (he : e ∈ edges) (hreal : ∀ v, Walk edges v (h v)) (v : V) :
    Walk edges v (relax h e v) := by
  rw [relax]
  split_ifs
  · rcases eq_or_ne v e.1 with rfl | hv
    · rw [update_self]
      exact .cons he (hreal e.2)
    · rw [update_of_ne hv]
      exact hreal v
  · exact hreal v

lemma realized_foldl {es : List (V × V)} (hes : es ⊆ edges) (hreal : ∀ v, Walk edges v (h v))
    (v : V) : Walk edges v (es.foldl relax h v) := by
  induction es generalizing h with
  | nil => exact hreal v
  | cons e es ih =>
    rw [cons_subset] at hes
    exact ih hes.2 (realized_relax hes.1 hreal)

/-- A round accounts for walks that are longer by one edge. -/
lemma covers_round (hcovers : ∀ v n, n ≤ k → Walk edges v n → n ≤ h v) (v : V) (n : ℕ)
    (hn : n ≤ k + 1) (hw : Walk edges v n) : n ≤ round edges h v := by
  cases hw with
  | nil => exact Nat.zero_le _
  | @cons _ b m hedge hrest =>
    have hb : m ≤ h b := hcovers b m (by omega) hrest
    -- the round relaxes the first edge of the walk
    have hsource : ∀ (es : List (V × V)) (g : V → ℕ), (v, b) ∈ es → m ≤ g b →
        m + 1 ≤ es.foldl relax g v := by
      intro es
      induction es with
      | nil => exact fun _ hmem => absurd hmem not_mem_nil
      | cons e es ih =>
        intro g hmem hg
        rcases mem_cons.1 hmem with rfl | hmem
        · exact (Nat.succ_le_succ hg).trans
            ((relax_source_le g (v, b)).trans (le_foldl_relax es _ v))
        · exact ih _ hmem (hg.trans (le_relax g e b))
    exact hsource edges h hedge hb

/-- Relaxing an edge raises the largest height by at most one. -/
lemma foldl_relax_le (es : List (V × V)) (hle : ∀ v, h v ≤ n) (v : V) :
    es.foldl relax h v ≤ n + es.length := by
  induction es generalizing h n with
  | nil => exact hle v
  | cons e es ih =>
    have hstep : ∀ v, relax h e v ≤ n + 1 := by
      intro v
      have hv := hle v
      have he := hle e.2
      rw [relax]
      split_ifs
      · rcases eq_or_ne v e.1 with rfl | hne
        · rw [update_self]
          omega
        · rw [update_of_ne hne]
          omega
      · omega
    have := ih hstep
    rw [foldl_cons, length_cons]
    omega

lemma foldl_relax_of_stable {es : List (V × V)} (hs : Stable es h) : es.foldl relax h = h := by
  induction es with
  | nil => rfl
  | cons e es ih =>
    have he := hs e mem_cons_self
    rw [foldl_cons, relax, if_neg (by omega)]
    exact ih fun e' he' => hs e' (mem_cons_of_mem e he')

/-! ## Rounds until nothing changes -/

instance decidableStable (edges : List (V × V)) (h : V → ℕ) : Decidable (Stable edges h) :=
  inferInstanceAs (Decidable (∀ e ∈ edges, _))

/-- At most `r` rounds, as long as some edge can be relaxed; `none` when one still can. -/
def settle (edges : List (V × V)) : ℕ → (V → ℕ) → Option (V → ℕ)
  | 0, h => if Stable edges h then some h else none
  | r + 1, h => if Stable edges h then some h else settle edges r (round edges h)

lemma stable_of_settle {g : V → ℕ} {r : ℕ} (hg : settle edges r h = some g) : Stable edges g := by
  induction r generalizing h with
  | zero =>
    rw [settle] at hg
    split_ifs at hg with hs
    cases hg
    exact hs
  | succ r ih =>
    rw [settle] at hg
    split_ifs at hg with hs
    · cases hg
      exact hs
    · exact ih hg

lemma realized_settle {g : V → ℕ} {r : ℕ} (hreal : ∀ v, Walk edges v (h v))
    (hg : settle edges r h = some g) (v : V) : Walk edges v (g v) := by
  induction r generalizing h with
  | zero =>
    rw [settle] at hg
    split_ifs at hg
    cases hg
    exact hreal v
  | succ r ih =>
    rw [settle] at hg
    split_ifs at hg
    · cases hg
      exact hreal v
    · exact ih (realized_foldl (List.Subset.refl edges) hreal) hg

/-- In an acyclic graph as many rounds as there are vertices are enough. -/
lemma exists_settle (hacyclic : ∀ v, ¬Relation.TransGen (Edge edges) v v) {S : Finset V}
    (hS : ∀ e ∈ edges, e.1 ∈ S ∧ e.2 ∈ S) {r : ℕ} (hr : S.card ≤ k + r)
    (hreal : ∀ v, Walk edges v (h v)) (hcovers : ∀ v n, n ≤ k → Walk edges v n → n ≤ h v) :
    ∃ g, settle edges r h = some g := by
  induction r generalizing h k with
  | zero =>
    refine ⟨h, if_pos fun e he => ?_⟩
    have hw : Walk edges e.1 (h e.2 + 1) := .cons he (hreal e.2)
    have hlt := hw.lt_card hacyclic hS (hS e he).1
    exact hcovers _ _ (by omega) hw
  | succ r ih =>
    rw [settle]
    split_ifs
    · exact ⟨h, rfl⟩
    · exact ih (k := k + 1) (by omega) (realized_foldl (List.Subset.refl edges) hreal)
        (covers_round hcovers)

end Relax

end Lapligence.LongestPaths
