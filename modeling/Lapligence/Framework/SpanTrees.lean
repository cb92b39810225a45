import Mathlib.Data.List.Basic

/-!
# Search trees over spans

Spans sorted by their starts, as a balanced search tree in which every node keeps the highest end of its
subtree.  A query for the spans that overlap a range descends the tree and prunes it by these ends and by the
starts; `visit_build` says that it finds what a pass over all spans would.
-/

namespace Lapligence.SpanTrees

open List

/-- A tree of spans; a node keeps the highest end of its subtree. -/
inductive Tree (α : Type) where
  | leaf
  | node (left : Tree α) (span : α) (reach : ℕ) (right : Tree α)

namespace Tree

variable {α : Type} (low high : α → ℕ)

def reach : Tree α → ℕ
  | leaf => 0
  | node _ _ reach _ => reach

def toList : Tree α → List α
  | leaf => []
  | node left span _ right => left.toList ++ span :: right.toList

/-- The tree of a list of at most `fuel` spans.  The root is the span in the middle. -/
def build : ℕ → List α → Tree α
  | 0, _ => leaf
  | fuel + 1, spans =>
    match spans.drop (spans.length / 2) with
    | [] => leaf
    | span :: after =>
      let left := build fuel (spans.take (spans.length / 2))
      let right := build fuel after
      node left span (max (max (high span) left.reach) right.reach) right

/-- The spans of a tree that overlap the range from `first` to `last`. -/
def visit (first last : ℕ) : Tree α → List α
  | leaf => []
  | node left span reach right =>
    if reach < first then []
    else
      left.visit first last ++
        if low span > last then []
        else (if high span ≥ first then [span] else []) ++ right.visit first last

/-- Every node knows how far its subtree reaches. -/
def Bounded : Tree α → Prop
  | leaf => True
  | node left span reach right =>
    (∀ x ∈ (node left span reach right).toList, high x ≤ reach) ∧ left.Bounded ∧ right.Bounded

variable {low high} {t : Tree α} {spans : List α} {fuel : ℕ}

lemma Bounded.le_reach (h : t.Bounded high) {x : α} (hx : x ∈ t.toList) : high x ≤ t.reach := by
  cases t with
  | leaf => exact absurd hx not_mem_nil
  | node => exact h.1 x hx

lemma build_spec (h : spans.length ≤ fuel) :
    (build high fuel spans).toList = spans ∧ (build high fuel spans).Bounded high := by
  induction fuel generalizing spans with
  | zero =>
    obtain rfl := length_eq_zero_iff.1 (Nat.le_zero.1 h)
    exact ⟨rfl, trivial⟩
  | succ fuel ih =>
    have hsplit := take_append_drop (spans.length / 2) spans
    rw [build]
    cases hdrop : spans.drop (spans.length / 2) with
    | nil =>
      have hlength := congrArg List.length hdrop
      rw [length_drop, length_nil] at hlength
      obtain rfl := length_eq_zero_iff.1 (by omega : spans.length = 0)
      exact ⟨rfl, trivial⟩
    | cons span after =>
      have hlength := congrArg List.length hdrop
      rw [length_drop, length_cons] at hlength
      obtain ⟨hleft, hbleft⟩ := @ih (spans.take (spans.length / 2)) (by rw [length_take]; omega)
      obtain ⟨hright, hbright⟩ := @ih after (by omega)
      rw [hdrop] at hsplit
      refine ⟨by rw [toList, hleft, hright, hsplit], fun x hx => ?_, hbleft, hbright⟩
      rcases mem_append.1 hx with hx | hx
      · exact Nat.le_trans (hbleft.le_reach hx) (by omega)
      · rcases mem_cons.1 hx with rfl | hx
        · omega
        · exact Nat.le_trans (hbright.le_reach hx) (by omega)

/-- A query finds the spans that overlap the range, in their order. -/
lemma visit_eq {first last : ℕ} (hbounded : t.Bounded high)
    (hsorted : t.toList.Pairwise fun x y => low x ≤ low y) :
    t.visit low high first last = t.toList.filter fun x => low x ≤ last ∧ first ≤ high x := by
  induction t with
  | leaf => rfl
  | node left span reach right ihleft ihright =>
    obtain ⟨hreach, hbleft, hbright⟩ := hbounded
    obtain ⟨hleft, hnode, -⟩ := pairwise_append.1 hsorted
    obtain ⟨hspan, hright⟩ := pairwise_cons.1 hnode
    rw [visit, ihleft hbleft hleft, ihright hbright hright]
    split_ifs with hshort hpast hhigh
    · refine (filter_eq_nil_iff.2 fun x hx => ?_).symm
      have := hreach x hx
      simp only [decide_eq_true_eq]
      omega
    · rw [toList, filter_append, append_nil, self_eq_append_right, filter_eq_nil_iff]
      intro x hx
      rcases mem_cons.1 hx with rfl | hx
      · simp [Nat.not_le.2 hpast]
      · simp [Nat.not_le.2 (Nat.lt_of_lt_of_le hpast (hspan x hx))]
    · rw [toList, filter_append, filter_cons_of_pos (by simp; omega)]
      rfl
    · rw [toList, filter_append, filter_cons_of_neg (by simp; omega)]
      rfl

/-- The query on the tree of sorted spans. -/
lemma visit_build {first last : ℕ} (hsorted : spans.Pairwise fun x y => low x ≤ low y) :
    (build high spans.length spans).visit low high first last =
      spans.filter fun x => low x ≤ last ∧ first ≤ high x := by
  obtain ⟨hlist, hbounded⟩ := @build_spec _ high _ _ (Nat.le_refl spans.length)
  rw [visit_eq hbounded (by rwa [hlist]), hlist]

end Tree

end Lapligence.SpanTrees
