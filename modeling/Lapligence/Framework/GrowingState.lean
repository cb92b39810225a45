import Mathlib.Order.Basic
import Mathlib.Tactic.Common

/-!
# State that only grows

Many stores are built by operations that keep an invariant and only ever *extend* the state:
nodes are appended, tables are filled, an overflow flag is raised and never lowered.  Facts
about an old state then stay true of every later one.

A `Growth` packages the invariant and the extension order of such a state type.  `Growth.wp`
is the weakest precondition of a state-monad computation relative to it: the computation
keeps the invariant, extends the state and ends in the postcondition.  The rules below are
the ones straight-line code and loops need; a client proves one `wp` rule per primitive
operation and composes them with `wp_bind`.
-/

namespace Lapligence

/-- An invariant of a state type together with the order in which states extend each other. -/
structure Growth (σ : Type*) where
  Inv : σ → Prop
  le : σ → σ → Prop
  refl : ∀ s, le s s
  trans : ∀ {s t u}, le s t → le t u → le s u

namespace Growth

universe u v

variable {σ : Type u} {α β : Type u} (G : Growth σ)

/-- From a state with the invariant, `x` reaches an extension with the invariant, where `Q`
holds of the result and the state. -/
def wp (x : StateM σ α) (s : σ) (Q : α → σ → Prop) : Prop :=
  G.Inv s → G.Inv (x s).2 ∧ G.le s (x s).2 ∧ Q (x s).1 (x s).2

variable {G}
variable {s : σ} {x : StateM σ α} {Q : α → σ → Prop}

lemma wp_pure {a : α} (h : Q a s) : G.wp (pure a) s Q :=
  fun hs => ⟨hs, G.refl s, h⟩

/-- Sequencing.  The continuation is entered with the fact that its state extends the first. -/
lemma wp_bind {f : α → StateM σ β} {Q : β → σ → Prop}
    (h : G.wp x s (fun a t => G.le s t → G.wp (f a) t Q)) : G.wp (x >>= f) s Q := by
  intro hs
  obtain ⟨ht, hst, hf⟩ := h hs
  obtain ⟨hu, htu, hq⟩ := hf hst ht
  exact ⟨hu, G.trans hst htu, hq⟩

lemma wp_mono {P : α → σ → Prop} (h : G.wp x s P)
    (hpq : ∀ a t, G.le s t → P a t → Q a t) : G.wp x s Q := by
  intro hs
  obtain ⟨ht, hst, hp⟩ := h hs
  exact ⟨ht, hst, hpq _ _ hst hp⟩

/-- Only the run from the first state matters. -/
lemma wp_of_eq {y : StateM σ α} (hxy : x s = y s) (h : G.wp y s Q) : G.wp x s Q := by
  unfold wp
  rwa [hxy]

/-- The invariant of the first state may be assumed. -/
lemma wp_of_inv (h : G.Inv s → G.wp x s Q) :
    G.wp x s Q := fun hs => h hs hs

lemma wp_get {Q : σ → σ → Prop} (h : Q s s) : G.wp get s Q :=
  fun hs => ⟨hs, G.refl s, h⟩

end Growth

end Lapligence
