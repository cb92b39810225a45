import Mathlib.Data.Finset.Card

/-!
# Exploring a graph through an array

The usual breadth-first loop: an array starts with a root, index `i` runs over it, and every
successor of the element at `i` that has not been seen is marked and appended.  `explore` is
that loop over an arbitrary successor function and an arbitrary set of elements seen before.

`explore_spec` is its whole behaviour: the array ends with distinct elements, reachable from
the root and new to the marks; and every successor of one of them is marked.
-/

namespace Lapligence

open Function List

variable {α : Type*} [DecidableEq α] (next : α → List α)

/-- Marks and the array. -/
structure Exploration (α : Type*) where
  seen : α → Bool
  found : List α

/-- Mark and append `x` unless it is marked. -/
def Exploration.visit (s : Exploration α) (x : α) : Exploration α :=
  if s.seen x then s else ⟨update s.seen x true, s.found ++ [x]⟩

/-- The loop from index `i`; `fuel` bounds the number of elements still to expand. -/
def explore : ℕ → ℕ → Exploration α → Exploration α
  | 0, _, s => s
  | fuel + 1, i, s =>
    match s.found[i]? with
    | none => s
    | some x => explore fuel (i + 1) ((next x).foldl Exploration.visit s)

variable {next} {s s₀ : Exploration α} {root : α}

/-- What the loop keeps: `s` comes from the marks `seen₀` and the root. -/
structure Exploration.Sound (next : α → List α) (seen₀ : α → Bool) (root : α)
    (s : Exploration α) : Prop where
  seen_iff : ∀ x, s.seen x = true ↔ seen₀ x = true ∨ x ∈ s.found
  nodup : s.found.Nodup
  fresh : ∀ x ∈ s.found, seen₀ x = false
  root_mem : root ∈ s.found
  reachable : ∀ x ∈ s.found, Relation.ReflTransGen (fun a b => b ∈ next a) root x

namespace Exploration.Sound

variable {seen₀ : α → Bool}

lemma visit (h : s.Sound next seen₀ root) {x y : α} (hx : x ∈ s.found) (hy : y ∈ next x) :
    (s.visit y).Sound next seen₀ root ∧ (∃ t, (s.visit y).found = s.found ++ t) ∧
      (s.visit y).seen y = true := by
  unfold Exploration.visit
  by_cases hseen : s.seen y = true
  · rw [if_pos hseen]
    exact ⟨h, ⟨[], by simp⟩, hseen⟩
  rw [if_neg hseen]
  have hnew : seen₀ y = false ∧ y ∉ s.found := by
    simpa [h.seen_iff y, not_or] using hseen
  refine ⟨⟨fun z => ?_, ?_, ?_, ?_, ?_⟩, ⟨[y], rfl⟩, update_self ..⟩
  · by_cases hz : z = y
    · simp [hz]
    · simp [h.seen_iff z, hz]
  · exact h.nodup.append (nodup_singleton y) (by simpa using hnew.2)
  · simp only [mem_append, mem_singleton]
    rintro z (hz | rfl)
    · exact h.fresh z hz
    · exact hnew.1
  · exact mem_append_left _ h.root_mem
  · simp only [mem_append, mem_singleton]
    rintro z (hz | rfl)
    · exact h.reachable z hz
    · exact (h.reachable x hx).tail hy

/-- Expanding one element marks all its successors. -/
lemma foldl_visit {x : α} : ∀ (ys : List α) (s : Exploration α), s.Sound next seen₀ root →
    x ∈ s.found → (∀ y ∈ ys, y ∈ next x) →
    (ys.foldl Exploration.visit s).Sound next seen₀ root ∧
      (∃ t, (ys.foldl Exploration.visit s).found = s.found ++ t) ∧
      ∀ y ∈ ys, (ys.foldl Exploration.visit s).seen y = true := by
  intro ys
  induction ys with
  | nil => exact fun s h _ _ => ⟨h, ⟨[], by simp⟩, by simp⟩
  | cons y ys ih =>
    intro s h hx hys
    obtain ⟨h₁, ⟨t₁, ht₁⟩, hy⟩ := h.visit hx (hys y mem_cons_self)
    obtain ⟨h₂, ⟨t₂, ht₂⟩, hys₂⟩ := ih (s.visit y) h₁ (ht₁ ▸ mem_append_left _ hx)
      fun z hz => hys z (mem_cons_of_mem y hz)
    refine ⟨h₂, ⟨t₁ ++ t₂, by rw [foldl_cons, ht₂, ht₁, append_assoc]⟩, ?_⟩
    intro z hz
    rcases mem_cons.mp hz with rfl | hz
    · -- A mark is never taken back.
      rw [foldl_cons, h₂.seen_iff]
      rcases (h₁.seen_iff z).mp hy with hz | hz
      · exact .inl hz
      · exact .inr (ht₂ ▸ mem_append_left _ hz)
    · exact hys₂ z hz

end Exploration.Sound

/-- **The loop explores.**  If every element that can be found lies in a set of at most `fuel`
elements, the loop ends with all successors of its array marked. -/
theorem explore_spec {seen₀ : α → Bool} (U : Finset α)
    (hU : ∀ s : Exploration α, s.Sound next seen₀ root → ∀ x ∈ s.found, x ∈ U) :
    ∀ (fuel i : ℕ) (s : Exploration α), s.Sound next seen₀ root → U.card ≤ fuel + i →
      (∀ x ∈ s.found.take i, ∀ y ∈ next x, s.seen y = true) →
      (explore next fuel i s).Sound next seen₀ root ∧
        ∀ x ∈ (explore next fuel i s).found, ∀ y ∈ next x,
          (explore next fuel i s).seen y = true := by
  have hlen : ∀ s : Exploration α, s.Sound next seen₀ root → s.found.length ≤ U.card := by
    intro s h
    rw [← toFinset_card_of_nodup h.nodup]
    exact Finset.card_le_card fun x hx => hU s h x (mem_toFinset.mp hx)
  intro fuel
  induction fuel with
  | zero =>
    intro i s h hfuel hdone
    have hall : s.found.take i = s.found := take_of_length_le (by have := hlen s h; omega)
    exact ⟨h, hall ▸ hdone⟩
  | succ fuel ih =>
    intro i s h hfuel hdone
    rw [explore]
    cases hget : s.found[i]? with
    | none =>
      have hall : s.found.take i = s.found :=
        take_of_length_le (List.getElem?_eq_none_iff.mp hget)
      exact ⟨h, hall ▸ hdone⟩
    | some x =>
      have hx : x ∈ s.found := mem_of_getElem? hget
      obtain ⟨h₁, ⟨t, ht⟩, hmarked⟩ := Exploration.Sound.foldl_visit (next x) s h hx fun _ h => h
      refine ih (i + 1) _ h₁ (by omega) fun z hz y hy => ?_
      have hi : i < s.found.length := by
        obtain ⟨hi, -⟩ := List.getElem?_eq_some_iff.mp hget
        exact hi
      rw [ht, take_append_of_le_length hi, take_add_one, hget] at hz
      simp only [Option.toList_some, mem_append, mem_singleton] at hz
      rcases hz with hz | rfl
      · rw [h₁.seen_iff]
        rcases (h.seen_iff y).mp (hdone z hz y hy) with hy | hy
        · exact .inl hy
        · exact .inr (ht ▸ mem_append_left _ hy)
      · exact hmarked y hy

/-- The state the loop starts from. -/
lemma Exploration.sound_root {seen₀ : α → Bool} (hroot : seen₀ root = false) :
    (⟨update seen₀ root true, [root]⟩ : Exploration α).Sound next seen₀ root where
  seen_iff := fun x => by
    by_cases hx : x = root
    · simp [hx]
    · simp [hx]
  nodup := nodup_singleton root
  fresh := by simpa using hroot
  root_mem := mem_singleton_self root
  reachable := by simpa using Relation.ReflTransGen.refl

end Lapligence
