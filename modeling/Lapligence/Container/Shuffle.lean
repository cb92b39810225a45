import Lapligence.Framework.Shuffles
import Lapligence.Value.Sv4

/-!
# Shuffling

The uniform choice of the random streams (`llg_rng.c`) and the `shuffle` method of the containers
(`llg_method_reorder` in `container/methods.c`).  The generator draws 32 bits until they fall into a whole
number of rounds of the span; the method exchanges each position, from the last one down, with a position
that is chosen uniformly among those not above it.

`uniform_fair` counts the draws behind a result of the generator, `shuffleLoop_of_times` says which permutation
a run of the method makes, and `shuffle_draws_card` counts the draws behind a permutation.
-/

namespace Lapligence.Container

open Shuffles Value Function Nat

/-! ## The generator -/

/-- `llg_rng_state_t`, without the count of children. -/
structure RngState where
  state : BitVec 64
  increment : BitVec 64
deriving DecidableEq, Repr

/-- `llg_rng_state_next`. -/
def llgRngStateNext (rng : RngState) : BitVec 32 × RngState :=
  let old := rng.state
  let xorshifted := (((old >>> 18) ^^^ old) >>> 27).setWidth 32
  let rotation := (old >>> 59).setWidth 32
  ((xorshifted >>> rotation.toNat) ||| (xorshifted <<< (-rotation &&& 31#32).toNat),
    { rng with state := old * 6364136223846793005#64 + rng.increment })

/-- The number of values between the bounds of `llg_rng_state_uniform`. -/
def uniformSpan (first second : BitVec 32) : ℕ :=
  (max first.toNat second.toNat - min first.toNat second.toNat) + 1

/-- The draws that end the loop of `llg_rng_state_uniform`. -/
def uniformAccepts (span : ℕ) (value : BitVec 32) : Prop :=
  ¬ value.toNat < 2 ^ 32 % span

instance (span : ℕ) (value : BitVec 32) : Decidable (uniformAccepts span value) :=
  inferInstanceAs (Decidable (¬ _))

/-- What `llg_rng_state_uniform` makes of an accepted draw. -/
def uniformResult (first second value : BitVec 32) : BitVec 32 :=
  BitVec.ofNat 32 (min first.toNat second.toNat) +
    BitVec.ofNat 32 (value.toNat % uniformSpan first second)

/-- `llg_rng_state_uniform`, for at most `fuel` draws. -/
def llgRngStateUniform (first second : BitVec 32) : ℕ → RngState → Option (BitVec 32 × RngState)
  | 0, _ => none
  | fuel + 1, rng =>
    let (value, rng) := llgRngStateNext rng
    if uniformAccepts (uniformSpan first second) value then some (uniformResult first second value, rng)
    else llgRngStateUniform first second fuel rng

/-! ## The method -/

/-- How a run of the method ends without a result: a random choice is still not made after the draws that
were allowed for it, or the container is too long. -/
inductive ShuffleStop where
  | drawing
  | fatal (message : String)
deriving DecidableEq, Repr

/-- What the method works on: the elements, their identities if the container keeps them, and whether
something has changed. -/
structure ShuffleState where
  data : ℕ → Sv4
  elementIds : Option (ℕ → ℕ)
  changed : Bool

/-- Exchange two entries of an array. -/
def exchange {α : Type} (array : ℕ → α) (i j : ℕ) : ℕ → α :=
  update (update array i (array j)) j (array i)

/-- The body of the loop, after the choice. -/
def shuffleStep (s : ShuffleState) (other last : ℕ) : ShuffleState :=
  if other = last then s
  else
    { data := exchange s.data other last
      elementIds := s.elementIds.map fun ids => exchange ids other last
      changed := s.changed || !sv4Same (s.data other) (s.data last) ||
        (s.elementIds.map fun ids => ids other != ids last).getD false }

/-- The loop of the method over the positions below `index`. -/
def shuffleLoop (fuel : ℕ) : ℕ → RngState → ShuffleState → Except ShuffleStop (RngState × ShuffleState)
  | 0, rng, s => .ok (rng, s)
  | 1, rng, s => .ok (rng, s)
  | index + 2, rng, s =>
    if index + 2 > 2 ^ 32 - 1 then .error (.fatal "shuffle size exceeds random range")
    else
      match llgRngStateUniform (BitVec.ofNat 32 (index + 1)) 0#32 fuel rng with
      | none => .error .drawing
      | some (other, rng) => shuffleLoop fuel (index + 1) rng (shuffleStep s other.toNat (index + 1))

/-- The method `shuffle` on a container of `count` elements, with at most `fuel` draws for a choice. -/
def llgMethodShuffle (fuel : ℕ) (rng : RngState) (data : ℕ → Sv4) (elementIds : Option (ℕ → ℕ))
    (count : ℕ) : Except ShuffleStop (RngState × ShuffleState) :=
  shuffleLoop fuel count rng ⟨data, elementIds, false⟩

/-! ## The draws behind a choice -/

/-- The result of an accepted draw, as a number. -/
lemma uniformResult_toNat (first second value : BitVec 32) :
    (uniformResult first second value).toNat =
      min first.toNat second.toNat + value.toNat % uniformSpan first second := by
  have h1 := first.isLt
  have h2 := second.isLt
  have hmod : value.toNat % uniformSpan first second < uniformSpan first second :=
    mod_lt _ (succ_pos _)
  have hspan : uniformSpan first second =
      (max first.toNat second.toNat - min first.toNat second.toNat) + 1 := rfl
  rw [uniformResult, BitVec.toNat_add, BitVec.toNat_ofNat, BitVec.toNat_ofNat,
    mod_eq_of_lt (by omega), mod_eq_of_lt (by omega), mod_eq_of_lt (by omega)]

/-- As many accepted draws as there are rounds of the span in `2 ^ 32` leave a given remainder. -/
lemma card_accepted {span k : ℕ} (hk : k < span) :
    Nat.card {value : BitVec 32 // uniformAccepts span value ∧ value.toNat % span = k} = 2 ^ 32 / span := by
  have hrounds : 2 ^ 32 % span + 2 ^ 32 / span * span = 2 ^ 32 := mod_add_div' ..
  let S := (Finset.Ico (2 ^ 32 % span) (2 ^ 32)).filter fun v => v % span = k
  have hS : S.card = 2 ^ 32 / span := by
    have := card_residue_class hk (2 ^ 32 % span) (2 ^ 32 / span)
    rwa [hrounds] at this
  have hmem : ∀ v : {value : BitVec 32 // uniformAccepts span value ∧ value.toNat % span = k},
      v.1.toNat ∈ S := by
    rintro ⟨v, hv, hmod⟩
    exact Finset.mem_filter.2 ⟨Finset.mem_Ico.2 ⟨Nat.not_lt.1 hv, v.isLt⟩, hmod⟩
  have hbij : Bijective fun v => (⟨_, hmem v⟩ : S) := by
    constructor
    · intro v v' heq
      exact Subtype.ext (BitVec.eq_of_toNat_eq (congrArg Subtype.val heq))
    · rintro ⟨n, hn⟩
      obtain ⟨hrange, hmod⟩ := Finset.mem_filter.1 hn
      obtain ⟨hlow, hhigh⟩ := Finset.mem_Ico.1 hrange
      have htoNat : (BitVec.ofNat 32 n).toNat = n := mod_eq_of_lt hhigh
      refine ⟨⟨BitVec.ofNat 32 n, ?_, by rwa [htoNat]⟩, Subtype.ext htoNat⟩
      rw [uniformAccepts, htoNat]
      exact Nat.not_lt.2 hlow
  rw [card_eq_of_bijective _ hbij, card_eq_fintype_card, Fintype.card_coe, hS]

/-- Equally many accepted draws lead to every value between the bounds, and none to the others. -/
def UniformFair (first second result : BitVec 32) : Prop :=
  Nat.card {value // uniformAccepts (uniformSpan first second) value ∧
      uniformResult first second value = result} =
    if min first.toNat second.toNat ≤ result.toNat ∧ result.toNat ≤ max first.toNat second.toNat then
      2 ^ 32 / uniformSpan first second
    else 0

lemma uniform_fair (first second result : BitVec 32) : UniformFair first second result := by
  have hspan : uniformSpan first second =
      (max first.toNat second.toNat - min first.toNat second.toNat) + 1 := rfl
  have hresult : ∀ value, uniformResult first second value = result ↔
      min first.toNat second.toNat + value.toNat % uniformSpan first second = result.toNat := by
    intro value
    rw [← uniformResult_toNat, BitVec.toNat_inj]
  have hmod : ∀ value : BitVec 32,
      value.toNat % uniformSpan first second < uniformSpan first second :=
    fun value => mod_lt _ (succ_pos _)
  rw [UniformFair]
  split_ifs with hbetween
  · have hk : result.toNat - min first.toNat second.toNat < uniformSpan first second := by omega
    rw [← card_accepted hk]
    refine card_congr (Equiv.subtypeEquivRight fun value => and_congr_right fun _ => ?_)
    rw [hresult]
    omega
  · have hnone : IsEmpty {value // uniformAccepts (uniformSpan first second) value ∧
        uniformResult first second value = result} := by
      refine ⟨fun v => hbetween ?_⟩
      have hv := (hresult v.1).1 v.2.2
      have := hmod v.1
      omega
    exact card_of_isEmpty

/-! ## The draws of a stream -/

/-- A stream after `k` draws. -/
def advance (rng : RngState) (k : ℕ) : RngState :=
  (fun r => (llgRngStateNext r).2)^[k] rng

/-- The draw that follows `k` others. -/
def nthDraw (rng : RngState) (k : ℕ) : BitVec 32 :=
  (llgRngStateNext (advance rng k)).1

/-- The draw `k` of a stream is the first from `start` on that is accepted for a span. -/
def FirstAccepted (rng : RngState) (span start k : ℕ) : Prop :=
  start ≤ k ∧ uniformAccepts span (nthDraw rng k) ∧
    ∀ j < k, start ≤ j → ¬uniformAccepts span (nthDraw rng j)

instance (rng : RngState) (span start k : ℕ) : Decidable (FirstAccepted rng span start k) :=
  inferInstanceAs (Decidable (_ ∧ _))

variable {rng : RngState} {span start : ℕ}

/-- A draw that is not accepted is skipped. -/
lemma firstAccepted_skip (h : ¬uniformAccepts span (nthDraw rng start)) (k : ℕ) :
    FirstAccepted rng span start k ↔ FirstAccepted rng span (start + 1) k := by
  constructor
  · rintro ⟨hle, haccept, hbefore⟩
    have hne : start ≠ k := fun heq => h (heq ▸ haccept)
    exact ⟨by omega, haccept, fun j hj hstart => hbefore j hj (by omega)⟩
  · rintro ⟨hle, haccept, hbefore⟩
    refine ⟨by omega, haccept, fun j hj hstart => ?_⟩
    rcases Nat.eq_or_lt_of_le hstart with rfl | hlt
    · exact h
    · exact hbefore j hj hlt

/-- One draw of the generator. -/
lemma llgRngStateUniform_succ (first second : BitVec 32) (rng : RngState) (fuel start : ℕ) :
    llgRngStateUniform first second (fuel + 1) (advance rng start) =
      if uniformAccepts (uniformSpan first second) (nthDraw rng start) then
        some (uniformResult first second (nthDraw rng start), advance rng (start + 1))
      else llgRngStateUniform first second fuel (advance rng (start + 1)) := by
  have hnext : (llgRngStateNext (advance rng start)).2 = advance rng (start + 1) :=
    (iterate_succ_apply' (fun r => (llgRngStateNext r).2) start rng).symm
  rw [llgRngStateUniform, ← hnext]
  rfl

/-- The generator returns the result of the first accepted draw, if that is among the next `fuel`. -/
lemma llgRngStateUniform_first {first second : BitVec 32} {fuel k : ℕ}
    (h : FirstAccepted rng (uniformSpan first second) start k) (hk : k < start + fuel) :
    llgRngStateUniform first second fuel (advance rng start) =
      some (uniformResult first second (nthDraw rng k), advance rng (k + 1)) := by
  induction fuel generalizing start with
  | zero => exact absurd h.1 (Nat.not_le.2 hk)
  | succ fuel ih =>
    rw [llgRngStateUniform_succ]
    split_ifs with haccept
    · obtain rfl : start = k := by
        by_contra hne
        have hle := h.1
        exact h.2.2 start (by omega) le_rfl haccept
      rfl
    · exact ih ((firstAccepted_skip haccept k).1 h) (by omega)

lemma llgRngStateUniform_none {first second : BitVec 32} {fuel : ℕ}
    (h : ∀ k < start + fuel, ¬FirstAccepted rng (uniformSpan first second) start k) :
    llgRngStateUniform first second fuel (advance rng start) = none := by
  induction fuel generalizing start with
  | zero => rfl
  | succ fuel ih =>
    rw [llgRngStateUniform_succ]
    split_ifs with haccept
    · exact absurd ⟨le_rfl, haccept, fun j hj hle => absurd hle (Nat.not_le.2 hj)⟩ (h start (by omega))
    · exact ih fun k hk => mt (firstAccepted_skip haccept k).2 (h k (by omega))

/-! ## The permutation of a run -/

lemma exchange_eq_comp {α : Type} (array : ℕ → α) (i j : ℕ) : exchange array i j = array ∘ Equiv.swap i j := by
  rw [Equiv.swap_comm, Equiv.comp_swap_eq_update, exchange]

/-- The body exchanges the chosen position and the last one, in both arrays. -/
lemma shuffleStep_eq (s : ShuffleState) (other last : ℕ) :
    (shuffleStep s other last).data = s.data ∘ Equiv.swap other last ∧
      (shuffleStep s other last).elementIds = s.elementIds.map (· ∘ Equiv.swap other last) := by
  rw [shuffleStep]
  split_ifs with h
  · subst h
    simp
  · simp only [exchange_eq_comp, and_self]

variable {count index : ℕ}

/-- A container of more elements than the generator can choose from is refused. -/
lemma shuffleLoop_of_large (h : 2 ^ 32 ≤ index) (fuel : ℕ) (rng : RngState) (s : ShuffleState) :
    shuffleLoop fuel index rng s = .error (.fatal "shuffle size exceeds random range") := by
  obtain ⟨index, rfl⟩ : ∃ i, index = i + 2 := ⟨index - 2, by omega⟩
  rw [shuffleLoop, if_pos (by omega)]

/-- The choice for the position `index - 1` that a draw leads to. -/
lemma uniformResult_index (h : index + 1 < 2 ^ 32) (value : BitVec 32) :
    uniformSpan (BitVec.ofNat 32 (index + 1)) 0#32 = index + 2 ∧
      (uniformResult (BitVec.ofNat 32 (index + 1)) 0#32 value).toNat = value.toNat % (index + 2) := by
  have hlast : (BitVec.ofNat 32 (index + 1)).toNat = index + 1 := mod_eq_of_lt h
  have hspan : uniformSpan (BitVec.ofNat 32 (index + 1)) 0#32 = index + 2 := by
    rw [uniformSpan, hlast]
    simp
  refine ⟨hspan, ?_⟩
  rw [uniformResult_toNat, hspan]
  simp

/-- The draw `time k` is taken for the choice among `k` positions: the first accepted one after the draw
for the choice among `k + 1` positions, and one of the next `fuel`. -/
def ChoiceTimes (fuel : ℕ) (rng : RngState) (start index : ℕ) (time : ℕ → ℕ) : Prop :=
  ∀ k, 2 ≤ k → k ≤ index →
    let start := if k = index then start else time (k + 1) + 1
    FirstAccepted rng k start (time k) ∧ time k < start + fuel

lemma choiceTimes_succ {fuel : ℕ} {time : ℕ → ℕ} : ChoiceTimes fuel rng start (index + 2) time ↔
    (FirstAccepted rng (index + 2) start (time (index + 2)) ∧ time (index + 2) < start + fuel) ∧
      ChoiceTimes fuel rng (time (index + 2) + 1) (index + 1) time := by
  constructor
  · intro h
    refine ⟨by simpa using h (index + 2) (by omega) le_rfl, fun k hk hki => ?_⟩
    have hold := h k hk (by omega)
    rw [if_neg (by omega)] at hold
    split_ifs with hlast
    · rwa [hlast] at hold ⊢
    · exact hold
  · rintro ⟨hfirst, hrest⟩ k hk hki
    dsimp only
    split_ifs with hlast
    · rwa [hlast]
    · have hold := hrest k hk (by omega)
      dsimp only at hold
      split_ifs at hold with hnext
      · rwa [hnext] at hold ⊢
      · exact hold

/-- A run whose choices are made in time applies the permutation of its draws. -/
lemma shuffleLoop_of_times {fuel : ℕ} {time : ℕ → ℕ} (hindex : index < 2 ^ 32)
    (h : ChoiceTimes fuel rng start index time) (s : ShuffleState) :
    ∃ rng' s', shuffleLoop fuel index (advance rng start) s = .ok (rng', s') ∧
      s'.data = s.data ∘ shufflePerm (fun k => (nthDraw rng (time k)).toNat % k) index ∧
      s'.elementIds =
        s.elementIds.map (· ∘ shufflePerm (fun k => (nthDraw rng (time k)).toNat % k) index) := by
  induction index using Nat.twoStepInduction generalizing start s with
  | zero | one => exact ⟨_, s, rfl, by simp [shufflePerm], by simp [shufflePerm]⟩
  | more index _ ih =>
    obtain ⟨⟨hfirst, hfuel⟩, hrest⟩ := choiceTimes_succ.1 h
    generalize hdraw : time (index + 2) = k at hfirst hfuel hrest
    obtain ⟨hspan, hother⟩ := uniformResult_index (show index + 1 < 2 ^ 32 by omega) (nthDraw rng k)
    rw [← hspan] at hfirst
    rw [shuffleLoop, if_neg (by omega), llgRngStateUniform_first hfirst hfuel]
    dsimp only
    rw [hother]
    obtain ⟨hdata, hids⟩ := shuffleStep_eq s ((nthDraw rng k).toNat % (index + 2)) (index + 1)
    obtain ⟨rng', s', hrun, hdata', hids'⟩ := ih (by omega) hrest (shuffleStep s _ (index + 1))
    refine ⟨rng', s', hrun, ?_, ?_⟩
    · rw [hdata', hdata, shufflePerm, hdraw, Equiv.Perm.coe_mul, Function.comp_assoc]
    · rw [hids', hids, Option.map_map, shufflePerm, hdraw]
      rfl

/-- Either all choices are made in time or the run is stopped while it draws. -/
lemma times_or_drawing {fuel : ℕ} (hindex : index < 2 ^ 32) (s : ShuffleState) :
    (∃ time, ChoiceTimes fuel rng start index time) ∨
      shuffleLoop fuel index (advance rng start) s = .error .drawing := by
  induction index using Nat.twoStepInduction generalizing start s with
  | zero | one => exact .inl ⟨id, fun k hk hki => by omega⟩
  | more index _ ih =>
    have hspan := (uniformResult_index (show index + 1 < 2 ^ 32 by omega) 0).1
    rw [shuffleLoop, if_neg (by omega)]
    by_cases hfound : ∃ k < start + fuel, FirstAccepted rng (index + 2) start k
    · obtain ⟨k, hk, hfirst⟩ := hfound
      rw [llgRngStateUniform_first (hspan.symm ▸ hfirst) hk]
      refine (ih (by omega) (shuffleStep s _ (index + 1))).imp_left ?_
      rintro ⟨time, htime⟩
      refine ⟨update time (index + 2) k, choiceTimes_succ.2 ?_⟩
      rw [update_self]
      refine ⟨⟨hfirst, hk⟩, fun j hj hji => ?_⟩
      have hold := htime j hj hji
      rw [update_of_ne (show j ≠ index + 2 by omega)]
      split_ifs at hold ⊢ with hlast
      · exact hold
      · rwa [update_of_ne (by omega)]
    · rw [llgRngStateUniform_none fun k hk hfirst => hfound ⟨k, hk, hspan ▸ hfirst⟩]
      exact .inr rfl

/-! ## Choices and permutations -/

/-- A choice for each position of a container but the first: among `k` positions for the position `k - 1`. -/
abbrev Choices (count : ℕ) : Type :=
  (k : Finset.Icc 2 count) → Fin k

/-- The permutations of the positions of a container. -/
abbrev Positions (count : ℕ) : Type :=
  {σ : Equiv.Perm ℕ // ∀ j, count ≤ j → σ j = j}

/-- The choices as a function of all numbers of positions. -/
def Choices.at {count : ℕ} (c : Choices count) (k : ℕ) : ℕ :=
  if h : k ∈ Finset.Icc 2 count then c ⟨k, h⟩ else 0

lemma Choices.at_eq (c : Choices count) (k : Finset.Icc 2 count) : c.at k = c k :=
  dif_pos k.2

lemma Choices.below (c : Choices count) : Below c.at count := by
  intro k hk hkc
  have h := c.at_eq ⟨k, Finset.mem_Icc.2 ⟨hk, hkc⟩⟩
  rw [h]
  exact Fin.is_lt _

/-- The permutation that the choices of the shuffle lead to. -/
def shuffleOutcome (count : ℕ) (c : Choices count) : Positions count :=
  ⟨shufflePerm c.at count, fun _ => shufflePerm_above c.below⟩

lemma shuffleOutcome_bijective (count : ℕ) : Bijective (shuffleOutcome count) := by
  constructor
  · intro c c' heq
    have hat := shufflePerm_injective c.below c'.below (congrArg Subtype.val heq)
    funext k
    obtain ⟨h2, hcount⟩ := Finset.mem_Icc.1 k.2
    apply Fin.ext
    rw [← c.at_eq, ← c'.at_eq, hat k h2 hcount]
  · rintro ⟨σ, hσ⟩
    obtain ⟨choice, hbelow, hperm⟩ := shufflePerm_surjective hσ
    have hlt : ∀ k : Finset.Icc 2 count, choice k < k := fun k =>
      hbelow k (Finset.mem_Icc.1 k.2).1 (Finset.mem_Icc.1 k.2).2
    refine ⟨fun k => ⟨choice k, hlt k⟩, Subtype.ext ?_⟩
    refine Eq.trans ?_ hperm
    exact shufflePerm_congr fun k hk hkc => dif_pos (Finset.mem_Icc.2 ⟨hk, hkc⟩)

/-- The choices that draws lead to. -/
def drawnChoices {count : ℕ} (draws : Finset.Icc 2 count → BitVec 32) : Choices count := fun k =>
  ⟨(draws k).toNat % k, mod_lt _ (by have := (Finset.mem_Icc.1 k.2).1; omega)⟩

/-- The number of sequences of accepted draws that lead to a permutation: the same for all of them. -/
def ShuffleFair {count : ℕ} (σ : Positions count) : Prop :=
  Nat.card {draws : Finset.Icc 2 count → BitVec 32 //
      (∀ k : Finset.Icc 2 count, uniformAccepts k (draws k)) ∧ shuffleOutcome count (drawnChoices draws) = σ} =
    ∏ k ∈ Finset.Icc 2 count, 2 ^ 32 / k

lemma shuffle_draws_card (σ : Positions count) : ShuffleFair σ := by
  obtain ⟨c, rfl⟩ := (shuffleOutcome_bijective count).2 σ
  have hiff : ∀ draws : Finset.Icc 2 count → BitVec 32,
      ((∀ k : Finset.Icc 2 count, uniformAccepts k (draws k)) ∧ shuffleOutcome count (drawnChoices draws) = shuffleOutcome count c) ↔
        ∀ k : Finset.Icc 2 count, uniformAccepts k (draws k) ∧ (draws k).toNat % k = c k := by
    intro draws
    rw [(shuffleOutcome_bijective count).1.eq_iff, funext_iff, forall_and]
    exact and_congr_right fun _ => forall_congr' fun k => Fin.ext_iff
  have hcard : ∀ k : Finset.Icc 2 count,
      Nat.card {value : BitVec 32 // uniformAccepts k value ∧ value.toNat % k = c k} = 2 ^ 32 / k :=
    fun k => card_accepted (c k).is_lt
  calc Nat.card _
      = Nat.card {draws : Finset.Icc 2 count → BitVec 32 //
          ∀ k : Finset.Icc 2 count, uniformAccepts k (draws k) ∧ (draws k).toNat % k = c k} :=
        card_congr (Equiv.subtypeEquivRight hiff)
    _ = Nat.card (∀ k : Finset.Icc 2 count,
          {value : BitVec 32 // uniformAccepts k value ∧ value.toNat % k = c k}) :=
        card_congr (Equiv.subtypePiEquivPi
          (p := fun (k : Finset.Icc 2 count) value => uniformAccepts k value ∧ value.toNat % k = c k))
    _ = ∏ k : Finset.Icc 2 count, 2 ^ 32 / (k : ℕ) := by
        rw [card_pi]
        exact Finset.prod_congr rfl fun k _ => hcard k
    _ = ∏ k ∈ Finset.Icc 2 count, 2 ^ 32 / k :=
        Finset.prod_coe_sort (Finset.Icc 2 count) fun k => 2 ^ 32 / k

/-- Shuffling is fair.  The uniform generator returns the result of the first accepted draw, and equally many
accepted draws lead to each result.  For a container of fewer than `2 ^ 32` elements the choices correspond to
the permutations, and equally many sequences of accepted draws lead to each permutation.  A run of the method
takes for each choice the first accepted draw after the previous choice; if these come in time, it returns and
has applied the permutation of the draws, to the elements and to their identities, and otherwise it is stopped
while it draws.  A longer container is refused. -/
theorem shuffle_fair :
    (∀ first second : BitVec 32, (∀ result, UniformFair first second result) ∧
      ∀ (fuel : ℕ) (rng : RngState),
        (∀ k < fuel, FirstAccepted rng (uniformSpan first second) 0 k →
          llgRngStateUniform first second fuel rng =
            some (uniformResult first second (nthDraw rng k), advance rng (k + 1))) ∧
        ((∀ k < fuel, ¬FirstAccepted rng (uniformSpan first second) 0 k) →
          llgRngStateUniform first second fuel rng = none)) ∧
    (∀ count < 2 ^ 32,
      Bijective (shuffleOutcome count) ∧
      (∀ σ : Positions count, ShuffleFair σ) ∧
      ∀ (fuel : ℕ) (rng : RngState) (data : ℕ → Sv4) (elementIds : Option (ℕ → ℕ)),
        (∀ time, ChoiceTimes fuel rng 0 count time →
          let σ := (shuffleOutcome count (drawnChoices fun k => nthDraw rng (time k))).1
          ∃ rng' s, llgMethodShuffle fuel rng data elementIds count = .ok (rng', s) ∧
            s.data = data ∘ σ ∧ s.elementIds = elementIds.map (· ∘ σ)) ∧
        ((∃ time, ChoiceTimes fuel rng 0 count time) ∨
          llgMethodShuffle fuel rng data elementIds count = .error .drawing)) ∧
    ∀ (count : ℕ), 2 ^ 32 ≤ count → ∀ (fuel : ℕ) (rng : RngState) (data : ℕ → Sv4)
      (elementIds : Option (ℕ → ℕ)),
      llgMethodShuffle fuel rng data elementIds count =
        .error (.fatal "shuffle size exceeds random range") := by
  refine ⟨fun first second => ⟨uniform_fair first second, fun fuel rng => ⟨fun k hk hfirst => ?_, fun hnone => ?_⟩⟩,
    fun count hcount => ⟨shuffleOutcome_bijective count, shuffle_draws_card,
      fun fuel rng data elementIds => ⟨fun time htime => ?_, times_or_drawing hcount _⟩⟩,
    fun count hlarge fuel rng data elementIds => shuffleLoop_of_large hlarge ..⟩
  · exact llgRngStateUniform_first hfirst (hk.trans_eq (Nat.zero_add fuel).symm)
  · exact @llgRngStateUniform_none rng 0 _ _ fuel fun k hk => hnone k (by omega)
  · have hperm : (shuffleOutcome count (drawnChoices fun k : Finset.Icc 2 count => nthDraw rng (time k))).1 =
        shufflePerm (fun k => (nthDraw rng (time k)).toNat % k) count :=
      shufflePerm_congr fun k hk hkc => dif_pos (Finset.mem_Icc.2 ⟨hk, hkc⟩)
    dsimp only
    rw [hperm]
    exact shuffleLoop_of_times hcount htime ⟨data, elementIds, false⟩

/-- Three elements, with a stream whose first two draws are not accepted for three positions. -/
theorem shuffle_fair_three :
    ∃ rng' s, llgMethodShuffle 3 ⟨0, 1⟩ (fun i => ⟨8, false, BitVec.ofNat 8 i, 0⟩) (some id) 3 =
        .ok (rng', s) ∧
      (List.range 3).map (fun i => (s.data i).a.toNat) = [2, 0, 1] ∧
      s.elementIds.map (List.range 3).map = some [2, 0, 1] := by
  have htimes : ChoiceTimes 3 ⟨0, 1⟩ 0 3 fun k => 5 - k := by
    intro k hk hk3
    obtain rfl | rfl : k = 2 ∨ k = 3 := by omega
    all_goals decide +kernel
  obtain ⟨rng', s, hrun, hdata, hids⟩ :=
    ((shuffle_fair.2.1 3 (by decide)).2.2 3 ⟨0, 1⟩ _ _).1 _ htimes
  refine ⟨rng', s, hrun, ?_, ?_⟩
  · rw [hdata]
    decide +kernel
  · rw [hids]
    decide +kernel

/-- No choice is made and no permutation comes out for a container of `2 ^ 32` elements. -/
theorem shuffle_refuses_long :
    llgMethodShuffle 1 ⟨0, 1⟩ (fun _ => ⟨1, false, 0, 0⟩) (some id) (2 ^ 32) =
      .error (.fatal "shuffle size exceeds random range") :=
  shuffleLoop_of_large le_rfl ..

end Lapligence.Container
