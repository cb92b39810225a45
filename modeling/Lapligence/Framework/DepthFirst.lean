import Mathlib.Algebra.Order.BigOperators.Group.Finset
import Mathlib.Data.List.TakeWhile

/-!
# Numbering in post-order with a stack

The loop that numbers the nodes of an acyclic graph so that children come first.  An element stays
on the stack while its children are numbered: the first time it is on top it is only `expanded`, its
children being pushed over it, and the second time it gets its number.  Elements can be on the
stack several times, and some have a number from the start.

`run_spec` says that the loop ends with every root numbered, the numbers consecutive, and the
children of each element numbered before it.
-/

namespace Lapligence.DepthFirst

open Function List

variable {α : Type*}

/-- The state of the loop; the head of `stack` is its top. -/
structure State (α : Type*) where
  number : α → Option ℕ
  order : List α
  stack : List α
  expanded : α → Bool

/-- The elements of the stack over the topmost `x`. -/
def State.above [DecidableEq α] (s : State α) (x : α) : List α :=
  s.stack.takeWhile fun y => decide (y ≠ x)

section Loop

variable [DecidableEq α] (base : ℕ) (children : α → List α)

/-- One round of the loop. -/
def step (s : State α) : State α :=
  match s.stack with
  | [] => s
  | n :: rest =>
    if (s.number n).isSome then { s with stack := rest }
    else if s.expanded n then
      { s with
        stack := rest
        number := update s.number n (some (s.order.length + base))
        order := s.order ++ [n] }
    else
      { s with
        expanded := update s.expanded n true
        stack := (children n).filter (fun c => (s.number c).isNone) ++ n :: rest }

/-- `fuel` rounds. -/
def run (fuel : ℕ) (s : State α) : State α := (step base children)^[fuel] s

/-- The loop before its first round. -/
def start (known : α → Option ℕ) (roots : List α) : State α := ⟨known, [], roots, fun _ => false⟩

end Loop

section Spec

variable {base : ℕ} {children : α → List α} {known : α → Option ℕ} {roots : List α}
  {U : Finset α} {rank : α → ℕ}

/-- What the loop keeps. -/
structure Inv [DecidableEq α] (base : ℕ) (children : α → List α) (known : α → Option ℕ)
    (roots : List α) (U : Finset α) (rank : α → ℕ) (s : State α) : Prop where
  mem_stack : ∀ x ∈ s.stack, x ∈ U
  mem_order : ∀ x ∈ s.order, x ∈ U
  number_known : ∀ x, x ∉ s.order → s.number x = known x
  number_order : ∀ (i : ℕ) (x : α), s.order[i]? = some x → s.number x = some (i + base)
  children_first : ∀ (i : ℕ) (x : α), s.order[i]? = some x → ∀ c ∈ children x,
    (known c).isSome ∨ ∃ j < i, s.order[j]? = some c
  pending : ∀ x, s.expanded x = true → s.number x = none → x ∈ s.stack ∧
    (∀ y ∈ s.above x, rank y < rank x) ∧ ∀ c ∈ children x, (s.number c).isSome ∨ c ∈ s.above x
  mem_roots : ∀ r ∈ roots, (s.number r).isSome ∨ r ∈ s.stack

variable [DecidableEq α]

lemma inv_start (hroots : ∀ r ∈ roots, r ∈ U) :
    Inv base children known roots U rank (start known roots) where
  mem_stack := hroots
  mem_order := by simp [start]
  number_known _ _ := rfl
  number_order := by simp [start]
  children_first := by simp [start]
  pending := by simp [start]
  mem_roots _ hr := .inr hr

/-- An element numbered during the loop has its place in the order. -/
lemma Inv.exists_order {s : State α} (h : Inv base children known roots U rank s) {x : α}
    (hx : (s.number x).isSome) : (known x).isSome ∨ ∃ i : ℕ, s.order[i]? = some x := by
  by_cases hmem : x ∈ s.order
  · exact .inr (mem_iff_getElem?.1 hmem)
  · rw [h.number_known x hmem] at hx
    exact .inl hx

/-- The top of the stack goes, being numbered now. -/
private lemma pending_pop {s : State α} (s' : State α) {n : α} {rest : List α}
    (h : Inv base children known roots U rank s) (hstack : s.stack = n :: rest)
    (hrest : s'.stack = rest) (hexp : s'.expanded = s.expanded) (hn : (s'.number n).isSome)
    (hmono : ∀ x, (s.number x).isSome → (s'.number x).isSome) {x : α}
    (hx : s'.expanded x = true) (hnone : s'.number x = none) :
    x ∈ s'.stack ∧ (∀ y ∈ s'.above x, rank y < rank x) ∧
      ∀ c ∈ children x, (s'.number c).isSome ∨ c ∈ s'.above x := by
  have hne : n ≠ x := by
    rintro rfl
    rw [hnone] at hn
    cases hn
  have hnone' : s.number x = none := by
    by_contra hsome
    have := hmono x (Option.isSome_iff_ne_none.2 hsome)
    rw [hnone] at this
    cases this
  have habove : s.above x = n :: s'.above x := by
    rw [State.above, State.above, hstack, hrest, takeWhile_cons_of_pos (by simpa using hne)]
  obtain ⟨hmem, hrank, hchildren⟩ := h.pending x (hexp ▸ hx) hnone'
  rw [hstack, mem_cons] at hmem
  rw [habove] at hrank hchildren
  refine ⟨hrest ▸ hmem.resolve_left (Ne.symm hne),
    fun y hy => hrank y (mem_cons_of_mem n hy), fun c hc => ?_⟩
  rcases hchildren c hc with hsome | hin
  · exact .inl (hmono c hsome)
  · rcases mem_cons.1 hin with rfl | hin
    · exact .inl hn
    · exact .inr hin

section Steps

variable {s : State α} {n : α} {rest : List α} (h : Inv base children known roots U rank s)
  (hstack : s.stack = n :: rest)
include h hstack

private lemma Inv.skip (hn : (s.number n).isSome) :
    Inv base children known roots U rank { s with stack := rest } where
  mem_stack x hx := h.mem_stack x (hstack ▸ mem_cons_of_mem n hx)
  mem_order := h.mem_order
  number_known := h.number_known
  number_order := h.number_order
  children_first := h.children_first
  pending _ hx hnone :=
    pending_pop { s with stack := rest } h hstack rfl rfl hn (fun _ hs => hs) hx hnone
  mem_roots r hr := by
    rcases h.mem_roots r hr with hs | hs
    · exact .inl hs
    · rw [hstack] at hs
      rcases mem_cons.1 hs with rfl | hs
      · exact .inl hn
      · exact .inr hs

/-- An expanded element that is on top again has all its children numbered. -/
private lemma Inv.children_numbered (hn : s.number n = none) (hexp : s.expanded n = true) :
    ∀ c ∈ children n, (s.number c).isSome := by
  obtain ⟨-, -, hchildren⟩ := h.pending n hexp hn
  have habove : s.above n = [] := by
    rw [State.above, hstack, takeWhile_cons_of_neg (by simp)]
  intro c hc
  rcases hchildren c hc with hs | hs
  · exact hs
  · rw [habove] at hs
    cases hs

private lemma Inv.assign (hn : s.number n = none) (hexp : s.expanded n = true) :
    Inv base children known roots U rank
      { s with
        stack := rest
        number := update s.number n (some (s.order.length + base))
        order := s.order ++ [n] } := by
  have hnot : n ∉ s.order := fun hmem => by
    obtain ⟨i, hi⟩ := mem_iff_getElem?.1 hmem
    rw [h.number_order i n hi] at hn
    cases hn
  have hmono : ∀ x, (s.number x).isSome →
      (update s.number n (some (s.order.length + base)) x).isSome := by
    intro x hs
    rcases eq_or_ne x n with rfl | hne
    · simp
    · rwa [update_of_ne hne]
  -- the places of the longer order: those of before, and the last one
  have hplace : ∀ (i : ℕ) (x : α), (s.order ++ [n])[i]? = some x →
      s.order[i]? = some x ∨ i = s.order.length ∧ x = n := by
    intro i x hi
    rcases Nat.lt_or_ge i s.order.length with hlt | hge
    · exact .inl (by rwa [List.getElem?_append_left hlt] at hi)
    · rw [List.getElem?_append_right hge, List.getElem?_singleton] at hi
      split_ifs at hi with hzero
      · exact .inr ⟨by omega, (Option.some.inj hi).symm⟩
  have hkeep : ∀ (i : ℕ) (x : α), s.order[i]? = some x → (s.order ++ [n])[i]? = some x := by
    intro i x hi
    rw [List.getElem?_append_left (List.getElem?_eq_some_iff.1 hi).1]
    exact hi
  refine ⟨fun x hx => h.mem_stack x (hstack ▸ mem_cons_of_mem n hx), ?_, ?_, ?_, ?_, ?_, ?_⟩
  · intro x hx
    rcases mem_append.1 hx with hx | hx
    · exact h.mem_order x hx
    · rw [mem_singleton.1 hx]
      exact h.mem_stack n (hstack ▸ mem_cons_self)
  · intro x hx
    rw [mem_append, mem_singleton, not_or] at hx
    simp only [update_of_ne hx.2]
    exact h.number_known x hx.1
  · intro i x hi
    rcases hplace i x hi with hi | ⟨rfl, rfl⟩
    · have hne : x ≠ n := fun hxn => hnot (hxn ▸ mem_of_getElem? hi)
      simp only [update_of_ne hne]
      exact h.number_order i x hi
    · simp
  · intro i x hi c hc
    rcases hplace i x hi with hi | ⟨rfl, rfl⟩
    · rcases h.children_first i x hi c hc with hs | ⟨j, hj, hcj⟩
      · exact .inl hs
      · exact .inr ⟨j, hj, hkeep j c hcj⟩
    · rcases h.exists_order (h.children_numbered hstack hn hexp c hc) with hs | ⟨j, hj⟩
      · exact .inl hs
      · exact .inr ⟨j, (List.getElem?_eq_some_iff.1 hj).1, hkeep j c hj⟩
  · intro x hx hnone
    have hself : (update s.number n (some (s.order.length + base)) n).isSome := by simp
    exact pending_pop ⟨_, s.order ++ [n], rest, _⟩ h hstack rfl rfl hself hmono hx hnone
  · intro r hr
    rcases h.mem_roots r hr with hs | hs
    · exact .inl (hmono r hs)
    · rw [hstack] at hs
      rcases mem_cons.1 hs with rfl | hs
      · simp
      · exact .inr hs

private lemma Inv.expand (hexp : s.expanded n = false) (hrank : ∀ c ∈ children n, rank c < rank n)
    (hU : ∀ c ∈ children n, (known c).isSome ∨ c ∈ U) :
    Inv base children known roots U rank
      { s with
        expanded := update s.expanded n true
        stack := (children n).filter (fun c => (s.number c).isNone) ++ n :: rest } := by
  set kids := (children n).filter fun c => (s.number c).isNone with hkids
  have hkid : ∀ c ∈ kids, c ∈ children n ∧ s.number c = none := fun c hc => by
    simpa [hkids] using hc
  refine ⟨?_, h.mem_order, h.number_known, h.number_order, h.children_first, ?_, ?_⟩
  · intro x hx
    rcases mem_append.1 hx with hx | hx
    · obtain ⟨hc, hnone⟩ := hkid x hx
      refine (hU x hc).resolve_left fun hs => ?_
      by_cases hmem : x ∈ s.order
      · obtain ⟨i, hi⟩ := mem_iff_getElem?.1 hmem
        rw [h.number_order i x hi] at hnone
        cases hnone
      · rw [← h.number_known x hmem, hnone] at hs
        cases hs
    · exact h.mem_stack x (hstack ▸ hx)
  · intro x hx hnone
    refine ⟨?_, ?_⟩
    · rcases eq_or_ne x n with rfl | hne
      · simp
      · obtain ⟨hmem, -⟩ := h.pending x (by simpa only [update_of_ne hne] using hx) hnone
        exact mem_append_right _ (hstack ▸ hmem)
    -- no child is the element itself or an expanded one below it: they have a higher rank
    have hover : ∀ y ∈ kids, rank y < rank x := by
      intro y hy
      have hyn := hrank y (hkid y hy).1
      rcases eq_or_ne x n with rfl | hne
      · exact hyn
      · obtain ⟨-, hless, -⟩ := h.pending x (by simpa only [update_of_ne hne] using hx) hnone
        refine hyn.trans (hless n ?_)
        rw [State.above, hstack, takeWhile_cons_of_pos (by simpa using Ne.symm hne)]
        exact mem_cons_self
    have hsplit : (kids ++ n :: rest).takeWhile (fun y => decide (y ≠ x)) = kids ++ s.above x := by
      rw [takeWhile_append_of_pos, State.above, hstack]
      intro y hy
      have hlt := hover y hy
      rw [decide_eq_true_iff]
      rintro rfl
      exact Nat.lt_irrefl _ hlt
    simp only [State.above] at hsplit ⊢
    rw [hsplit]
    rcases eq_or_ne x n with rfl | hne
    · have hnil : s.stack.takeWhile (fun y => decide (y ≠ x)) = [] := by
        rw [hstack, takeWhile_cons_of_neg (by simp)]
      rw [hnil, append_nil]
      refine ⟨hover, fun c hc => ?_⟩
      by_cases hsome : (s.number c).isSome
      · exact .inl hsome
      · exact .inr (mem_filter.2 ⟨hc, by simpa using hsome⟩)
    · obtain ⟨-, hless, hchildren⟩ := h.pending x (by simpa only [update_of_ne hne] using hx) hnone
      refine ⟨fun y hy => ?_, fun c hc => ?_⟩
      · rcases mem_append.1 hy with hy | hy
        · exact hover y hy
        · exact hless y hy
      · rcases hchildren c hc with hs | hs
        · exact .inl hs
        · exact .inr (mem_append_right _ hs)
  · intro r hr
    rcases h.mem_roots r hr with hs | hs
    · exact .inl hs
    · exact .inr (mem_append_right _ (hstack ▸ hs))

end Steps

/-- The rounds that are still possible: the stack, and for what is not expanded its children and
its own second visit. -/
def budget (U : Finset α) (children : α → List α) (s : State α) : ℕ :=
  s.stack.length + ∑ x ∈ U with s.expanded x = false, ((children x).length + 1)

lemma budget_expand {s : State α} {n : α} {rest kids : List α} (hstack : s.stack = n :: rest)
    (hnU : n ∈ U) (hexp : s.expanded n = false) (hkids : kids.length ≤ (children n).length) :
    budget U children { s with expanded := update s.expanded n true, stack := kids ++ n :: rest } <
      budget U children s := by
  have hfilter : U.filter (fun y => s.expanded y = false) =
      insert n (U.filter fun y => update s.expanded n true y = false) := by
    ext y
    rcases eq_or_ne y n with rfl | hne
    · simp [hnU, hexp]
    · simp [hne]
  have hnot : n ∉ U.filter fun y => update s.expanded n true y = false := by simp
  rw [budget, budget, hfilter, Finset.sum_insert hnot, hstack]
  simp only [length_append, length_cons]
  omega

/-- A round keeps the invariant and uses up some of the budget. -/
lemma step_spec (hrank : ∀ x ∈ U, ∀ c ∈ children x, rank c < rank x)
    (hU : ∀ x ∈ U, ∀ c ∈ children x, (known c).isSome ∨ c ∈ U) {s : State α}
    (h : Inv base children known roots U rank s) :
    Inv base children known roots U rank (step base children s) ∧
      (s.stack = [] ∨ budget U children (step base children s) < budget U children s) := by
  unfold step
  split
  · exact ⟨h, .inl ‹_›⟩
  · next n rest hstack =>
    have hnU := h.mem_stack n (hstack ▸ mem_cons_self)
    have hpop : rest.length < s.stack.length := by simp [hstack]
    split_ifs with hsome hexp
    · exact ⟨h.skip hstack hsome, .inr (Nat.add_lt_add_right hpop _)⟩
    · exact ⟨h.assign hstack (by simpa using hsome) hexp, .inr (Nat.add_lt_add_right hpop _)⟩
    · rw [Bool.not_eq_true] at hexp
      exact ⟨h.expand hstack hexp (hrank n hnU) (hU n hnU),
        .inr (budget_expand hstack hnU hexp (length_filter_le _ _))⟩

/-- **The numbering.**  With enough rounds the stack is used up. -/
theorem run_spec (hrank : ∀ x ∈ U, ∀ c ∈ children x, rank c < rank x)
    (hU : ∀ x ∈ U, ∀ c ∈ children x, (known c).isSome ∨ c ∈ U) (hroots : ∀ r ∈ roots, r ∈ U)
    {fuel : ℕ} (hfuel : roots.length + ∑ x ∈ U, ((children x).length + 1) ≤ fuel) :
    Inv base children known roots U rank (run base children fuel (start known roots)) ∧
      (run base children fuel (start known roots)).stack = [] := by
  have hrun : ∀ (fuel : ℕ) (s : State α), Inv base children known roots U rank s →
      budget U children s ≤ fuel → Inv base children known roots U rank (run base children fuel s) ∧
        (run base children fuel s).stack = [] := by
    intro fuel
    induction fuel with
    | zero =>
      intro s h hle
      refine ⟨h, eq_nil_of_length_eq_zero ?_⟩
      rw [budget] at hle
      exact Nat.eq_zero_of_le_zero (le_trans (Nat.le_add_right _ _) hle)
    | succ fuel ih =>
      intro s h hle
      obtain ⟨hstep, hless⟩ := step_spec hrank hU h
      rcases hless with hnil | hless
      · have hsame : step base children s = s := by rw [step, hnil]
        rw [run, iterate_fixed hsame]
        exact ⟨h, hnil⟩
      · rw [run, iterate_succ_apply]
        exact ih _ hstep (by omega)
  refine hrun fuel _ (inv_start hroots) ?_
  simpa [budget, start] using hfuel

end Spec

end Lapligence.DepthFirst
