import Mathlib.Data.Fintype.Order
import Mathlib.Data.Int.ConditionallyCompleteOrder

/-!
# Levels that spread and block each other

Positions carry integer levels.  A position has a level of its own; a level that is not
*blocked* at its position leaves along links, each of which may weaken it; a free position
takes the greatest of its own level and of what arrives.  Whether a level is blocked depends
on other levels, so the equations are not monotone.

Such equations need not have one solution: two positions joined by links can hold each other
up.  A solution is *grounded* if every level is traced back to a position's own level.  If
blocking is *stratified* (a level is blocked by higher strata only, and a link never leads to
a higher stratum) then there is at most one grounded solution, `IsGroundedSolution.unique`.
-/

namespace Lapligence

/-- Own levels, positions that take no arrivals, links with what they do to a level, and
blocking. -/
structure LevelSystem (X : Type*) where
  own : X → ℤ
  fixed : X → Prop
  link : X → X → (ℤ → ℤ) → Prop
  blocked : (X → ℤ) → X → Prop

namespace LevelSystem

variable {X Y : Type*} (S : LevelSystem X)

/-- Level `L` arrives at `y`. -/
def Arrives (lvl : X → ℤ) (y : X) (L : ℤ) : Prop :=
  ∃ x f, S.link x y f ∧ 1 ≤ lvl x ∧ ¬S.blocked lvl x ∧ L = f (lvl x)

/-- `lvl` solves the equations of the positions in `C`. -/
structure IsSolution (C : Set X) (lvl : X → ℤ) : Prop where
  fixed : ∀ x ∈ C, S.fixed x → lvl x = S.own x
  greatest : ∀ x ∈ C, ¬S.fixed x → IsGreatest (insert (S.own x) {L | S.Arrives lvl x L}) (lvl x)

/-- The level of a position is traced back to an own level. -/
inductive Grounded (lvl : X → ℤ) : X → Prop
  | own {x : X} (h : lvl x = S.own x) : Grounded lvl x
  | arrive {x y : X} {f : ℤ → ℤ} (hlink : S.link x y f) (hx : Grounded lvl x) (hpos : 1 ≤ lvl x)
      (hblocked : ¬S.blocked lvl x) (h : lvl y = f (lvl x)) : Grounded lvl y

/-- A solution on `C` in which every level is traced back to an own level. -/
def IsGroundedSolution (C : Set X) (lvl : X → ℤ) : Prop :=
  S.IsSolution C lvl ∧ ∀ x ∈ C, S.Grounded lvl x

/-- Strata of levels: a link never leads to a higher one, and only higher ones block. -/
structure Stratified (C : Set X) (stratum : X → ℤ → ℤ) (top : ℤ) : Prop where
  strictMono : ∀ x, StrictMono (stratum x)
  link_mem : ∀ {x y f}, S.link x y f → y ∈ C → x ∈ C
  link : ∀ {x y f L}, S.link x y f → 1 ≤ L → stratum y (f L) ≤ stratum x L
  blocked : ∀ {lvl lvl' : X → ℤ} {x}, x ∈ C → lvl x = lvl' x →
    (∀ z ∈ C, ∀ L, stratum x (lvl x) < stratum z L → (lvl z = L ↔ lvl' z = L)) →
    (S.blocked lvl x ↔ S.blocked lvl' x)
  own_le : ∀ x, stratum x (S.own x) ≤ top

variable {S} {C : Set X} {lvl lvl' : X → ℤ} {stratum : X → ℤ → ℤ} {top : ℤ}

lemma Grounded.stratum_le (hS : S.Stratified C stratum top) {x : X} (hx : S.Grounded lvl x) :
    stratum x (lvl x) ≤ top := by
  induction hx with
  | @own x h =>
    rw [h]
    exact hS.own_le x
  | @arrive x y f hlink _ hpos _ h ih =>
    rw [h]
    exact (hS.link hlink hpos).trans ih

lemma IsSolution.own_le (h : S.IsSolution C lvl) {x : X} (hx : x ∈ C) : S.own x ≤ lvl x := by
  by_cases hfix : S.fixed x
  · exact (h.fixed x hx hfix).ge
  · exact (h.greatest x hx hfix).2 (Set.mem_insert _ _)

/-- One stratum of the uniqueness argument: if two solutions agree above stratum `t`, then a
grounded level of the first in stratum `t` is a level of the second.  The induction is on the
trace of the level. -/
lemma Grounded.agree (hS : S.Stratified C stratum top) (hsol : S.IsSolution C lvl)
    (hsol' : S.IsSolution C lvl') {t : ℤ}
    (habove : ∀ x ∈ C, ∀ L, t < stratum x L → (lvl x = L ↔ lvl' x = L)) {x : X}
    (hx : S.Grounded lvl x) : x ∈ C → t ≤ stratum x (lvl x) → lvl' x = lvl x := by
  -- A level of the second solution above the stratum would be one of the first.
  have hupper : ∀ x ∈ C, t ≤ stratum x (lvl x) → lvl' x ≤ lvl x := by
    intro x hxC hle
    by_contra hlt
    have hlt := not_le.mp hlt
    have := (habove x hxC (lvl' x) (hle.trans_lt (hS.strictMono x hlt))).mpr rfl
    exact hlt.ne this
  induction hx with
  | @own x h =>
    intro hxC hle
    refine le_antisymm (hupper x hxC hle) ?_
    rw [h]
    exact hsol'.own_le hxC
  | @arrive x y f hlink _ hpos hblocked h ih =>
    intro hyC hle
    have hxC := hS.link_mem hlink hyC
    have hstep : stratum y (lvl y) ≤ stratum x (lvl x) := by
      rw [h]
      exact hS.link hlink hpos
    have hx' : lvl' x = lvl x := ih hxC (hle.trans hstep)
    have hfree : ¬S.blocked lvl' x := by
      rwa [← hS.blocked hxC hx'.symm fun z hz L hL => habove z hz L ((hle.trans hstep).trans_lt hL)]
    refine le_antisymm (hupper y hyC hle) ?_
    by_cases hfix : S.fixed y
    · rw [hsol'.fixed y hyC hfix, hsol.fixed y hyC hfix]
    · refine (hsol'.greatest y hyC hfix).2 (Set.mem_insert_of_mem _ ?_)
      exact ⟨x, f, hlink, hx'.symm ▸ hpos, hfree, by rw [h, hx']⟩

/-- **At most one grounded solution.** -/
theorem IsGroundedSolution.unique (hS : S.Stratified C stratum top)
    (h : S.IsGroundedSolution C lvl) (h' : S.IsGroundedSolution C lvl') :
    ∀ x ∈ C, lvl x = lvl' x := by
  obtain ⟨hsol, hground⟩ := h
  obtain ⟨hsol', hground'⟩ := h'
  -- Agreement above `top - k`, by induction on `k`.
  have hall : ∀ k : ℕ, ∀ x ∈ C, ∀ L, top - k < stratum x L → (lvl x = L ↔ lvl' x = L) := by
    intro k
    induction k with
    | zero =>
      intro x hx L hL
      have h1 := (hground x hx).stratum_le hS
      have h2 := (hground' x hx).stratum_le hS
      constructor <;> rintro rfl <;> omega
    | succ k ih =>
      intro x hx L hL
      have ih' : ∀ x ∈ C, ∀ L, top - k < stratum x L → (lvl' x = L ↔ lvl x = L) :=
        fun x hx L hL => (ih x hx L hL).symm
      constructor
      · rintro rfl
        exact (hground x hx).agree hS hsol hsol' ih hx (by push_cast at hL; omega)
      · rintro rfl
        exact (hground' x hx).agree hS hsol' hsol ih' hx (by push_cast at hL; omega)
  intro x hx
  refine ((hall ((top - stratum x (lvl x)).toNat + 1) x hx (lvl x) ?_).mp rfl).symm
  push_cast
  omega

/-- A solution of a renamed system, read through the renaming. -/
lemma IsGroundedSolution.comap {S' : LevelSystem Y} (φ : X ≃ Y) {D : Set Y} {lvl : Y → ℤ}
    (hC : ∀ x ∈ C, φ x ∈ D) (hown : ∀ x ∈ C, S.own x = S'.own (φ x))
    (hfixed : ∀ x ∈ C, S.fixed x ↔ S'.fixed (φ x))
    (hlink : ∀ x, ∀ y ∈ C, ∀ f, S.link x y f ↔ S'.link (φ x) (φ y) f)
    (hmem : ∀ x, ∀ y ∈ C, ∀ f, S.link x y f → x ∈ C)
    (hblocked : ∀ x ∈ C, S.blocked (lvl ∘ φ) x ↔ S'.blocked lvl (φ x))
    (h : S'.IsGroundedSolution D lvl) : S.IsGroundedSolution C (lvl ∘ φ) := by
  have harrives : ∀ y ∈ C, {L | S.Arrives (lvl ∘ φ) y L} = {L | S'.Arrives lvl (φ y) L} := by
    intro y hy
    ext L
    constructor
    · rintro ⟨x, f, hl, hpos, hb, hL⟩
      have hx := hmem x y hy f hl
      exact ⟨φ x, f, (hlink x y hy f).mp hl, hpos, fun hb' => hb ((hblocked x hx).mpr hb'), hL⟩
    · rintro ⟨x', f, hl, hpos, hb, hL⟩
      obtain ⟨x, rfl⟩ := φ.surjective x'
      have hl' := (hlink x y hy f).mpr hl
      have hx := hmem x y hy f hl'
      exact ⟨x, f, hl', hpos, fun hb' => hb ((hblocked x hx).mp hb'), hL⟩
  have hground : ∀ y', S'.Grounded lvl y' → ∀ y ∈ C, φ y = y' → S.Grounded (lvl ∘ φ) y := by
    intro y' hy'
    induction hy' with
    | own h =>
      rintro y hy rfl
      exact .own (h.trans (hown y hy).symm)
    | @arrive x' y' f hl _ hpos hb h ih =>
      rintro y hy rfl
      obtain ⟨x, rfl⟩ := φ.surjective x'
      have hl' := (hlink x y hy f).mpr hl
      have hx := hmem x y hy f hl'
      exact .arrive hl' (ih x hx rfl) hpos (fun hb' => hb ((hblocked x hx).mp hb')) h
  refine ⟨⟨fun x hx hfix => ?_, fun x hx hfix => ?_⟩, fun x hx => ?_⟩
  · rw [hown x hx]
    exact h.1.fixed _ (hC x hx) ((hfixed x hx).mp hfix)
  · rw [hown x hx, harrives x hx]
    exact h.1.greatest _ (hC x hx) (fun hfix' => hfix ((hfixed x hx).mpr hfix'))
  · exact hground _ (h.2 _ (hC x hx)) x hx rfl

end LevelSystem

end Lapligence
