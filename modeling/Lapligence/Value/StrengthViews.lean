import Lapligence.Value.Nets
import Lapligence.Value.Sv4

/-!
# Strength views

The resolution of a net with strengths as the runtime's first backend computes it (`sv4_resolve_strengths`
and `sv4_resolve` in `value/operations.c`), and the view of the strengths that `%v` shows
(`llg_net_strength_levels` in `scheduler/nets.c`), for a net that is neither forced nor part of a switch
network.  The two are read a bit at a time: `resolvedState` is the bit of the value, `strengthView` the byte
of the view.

Both start from the same tables of levels.  The value compares the greatest levels directly, the view spans
an interval with them; `hull_agrees` is the comparison of the two, `strengthView_agrees` the result.
-/

namespace Lapligence.Value

open List

/-! ## Nets -/

/-- A driver of a net: its value, if it is connected, and the strengths of its zeros and its ones.  A strength
above the supply aborts the program. -/
structure StrengthDriver where
  value : Option Sv4
  strength0 : Fin 8
  strength1 : Fin 8

/-- A net; `strengths` tells whether it has arrays of strengths. -/
structure StrengthNet where
  width : ℕ
  mode : ResolveMode
  drivers : List StrengthDriver
  strengths : Bool

/-- The states of a bit. -/
inductive NetState where
  | zero | one | x | z
deriving DecidableEq, Repr

/-- `LLG_STRENGTH_STRONG`. -/
def strengthStrong : Fin 8 := ⟨6, by decide⟩

/-- `sv4_limb_mask`. -/
def sv4LimbMask (w i : ℕ) : BitVec 64 :=
  let nl := (w + 63) / 64
  if i ≥ nl then 0 else if i + 1 = nl ∧ w % 64 ≠ 0 then g4Mask (w % 64) else BitVec.allOnes 64

/-- The greatest level above `LLG_STRENGTH_HIGHZ`, and at most `level`, that has a bit (`llg_net_top_level` and
the four searches of `sv4_resolve_strengths`). -/
def topLevel (has : ℕ → Bool) : ℕ → ℤ
  | 0 => -1
  | level + 1 => if has (level + 1) then level + 1 else topLevel has level

/-- The greatest levels of a bit: of its known zeros and ones and of its possible ones. -/
structure TopLevels where
  k0 : ℤ
  k1 : ℤ
  p0 : ℤ
  p1 : ℤ

def Levels.top (levels : Levels) (bit : ℕ) : TopLevels :=
  let top := fun table : ℕ → BitVec 64 => topLevel (fun level => (table level).getLsbD bit) strengthSupply
  ⟨top levels.known0, top levels.known1, top levels.possible0, top levels.possible1⟩

/-! ## The value -/

/-- What a driver contributes to word `i` in `sv4_resolve_strengths`, and in `sv4_resolve`. -/
def resolveDriver (v : Sv4) (i : ℕ) (m : BitVec 64) : DriverWord :=
  let bits := llgSv4PlaneWord v i .bits
  let x := llgSv4PlaneWord v i .x &&& m
  let z := (llgSv4PlaneWord v i .z ||| ~~~sv4LimbMask v.width i) &&& m
  ⟨~~~bits &&& ~~~(x ||| z) &&& m, bits &&& ~~~(x ||| z) &&& m, x⟩

/-- The tables of `sv4_resolve_strengths` for word `i`. -/
def resolveLevels (net : StrengthNet) (i : ℕ) (m : BitVec 64) : Levels :=
  net.drivers.foldl (fun levels d =>
    match d.value with
    | none => levels
    | some v =>
      if i ≥ llgSv4Words v then levels
      else levels.add (resolveDriver v i m) d.strength0 d.strength1) (firstLevels net.mode m)

/-- The decision of `sv4_resolve_strengths` for a bit. -/
def resolveBit (mode : ResolveMode) (top : TopLevels) : NetState :=
  if top.p0 < 0 ∧ top.p1 < 0 then .z
  else
    match mode with
    | .wand =>
      if top.k0 > top.p1 ∨ (top.k0 ≥ 0 ∧ top.k0 = top.p1) then .zero
      else if top.k1 > top.p0 then .one
      else .x
    | .wor =>
      if top.k1 > top.p0 ∨ (top.k1 ≥ 0 ∧ top.k1 = top.p0) then .one
      else if top.k0 > top.p1 then .zero
      else .x
    | _ => if top.k0 > top.p1 then .zero else if top.k1 > top.p0 then .one else .x

/-- The union of what the drivers contribute to word `i` in `sv4_resolve`. -/
def resolveAny (net : StrengthNet) (i : ℕ) (m : BitVec 64) : DriverWord :=
  net.drivers.foldl (fun any d =>
    match d.value with
    | none => any
    | some v =>
      if i ≥ llgSv4Words v then any
      else
        let word := resolveDriver v i m
        ⟨any.zeros ||| word.zeros, any.ones ||| word.ones, any.x ||| word.x⟩) ⟨0, 0, 0⟩

/-- The state that a pair of bits of the planes stands for. -/
def planeState (a b : Bool) : NetState :=
  if b then if a then .x else .z else if a then .one else .zero

/-- A bit of what `sv4_resolve` returns. -/
def sv4ResolveBit (net : StrengthNet) (bit : ℕ) : NetState :=
  let m := sv4LimbMask net.width (bit / 64)
  match net.mode with
  | .supply0 => .zero
  | .supply1 => .one
  | mode =>
    let word := plainWord mode (resolveAny net (bit / 64) m) m
    planeState (word.1.getLsbD (bit % 64)) (word.2.getLsbD (bit % 64))

/-- A bit of what `sv4_resolve_strengths` returns; without strengths it is `sv4_resolve`. -/
def resolvedState (net : StrengthNet) (bit : ℕ) : NetState :=
  if net.strengths then
    resolveBit net.mode
      ((resolveLevels net (bit / 64) (sv4LimbMask net.width (bit / 64))).top (bit % 64))
  else sv4ResolveBit net bit

/-! ## The view -/

/-- What a driver contributes to word `i` in `llg_net_strength_levels`. -/
def viewDriver (v : Sv4) (i : ℕ) (m : BitVec 64) : DriverWord :=
  let valid := if i < llgSv4Words v then g4Mask (v.width - 64 * i) else 0
  let x := llgSv4PlaneWord v i .x &&& valid &&& m
  let z := (llgSv4PlaneWord v i .z ||| ~~~valid) &&& m
  let bits := llgSv4PlaneWord v i .bits
  ⟨~~~bits &&& ~~~(x ||| z) &&& m, bits &&& ~~~(x ||| z) &&& m, x⟩

/-- The tables of `llg_net_strength_levels` for word `i`. -/
def viewLevels (net : StrengthNet) (i : ℕ) (m : BitVec 64) : Levels :=
  net.drivers.foldl (fun levels d =>
    match d.value with
    | none => levels
    | some v =>
      levels.add (viewDriver v i m) (if net.strengths then d.strength0 else strengthStrong)
        (if net.strengths then d.strength1 else strengthStrong)) (firstLevels net.mode m)

/-- `llg_net_strength_code`. -/
def strengthCode (lo hi : ℤ) : ℕ :=
  (hi + 7).toNat <<< 4 ||| (lo + 7).toNat

/-- The end of `llg_net_strength_hull` on one side: `p` is possible on the side itself, `k` is known on the
other; `ties` tells whether the side wins a tie. -/
def hullEnd (ties : Bool) (p k : ℤ) : ℤ :=
  if p ≥ 0 ∧ (if ties then p ≥ k else p > k) then p else if k ≥ 0 then -k else 0

/-- `llg_net_strength_hull`. -/
def strengthHull (mode : ResolveMode) (top : TopLevels) : ℕ :=
  match mode with
  | .wand => strengthCode (-hullEnd true top.p0 top.k1) (hullEnd false top.p1 top.k0)
  | .wor => strengthCode (-hullEnd false top.p0 top.k1) (hullEnd true top.p1 top.k0)
  | _ => strengthCode (-hullEnd true top.p0 top.k1) (hullEnd true top.p1 top.k0)

/-- The byte of the view for a bit. -/
def strengthView (net : StrengthNet) (bit : ℕ) : ℕ :=
  strengthHull net.mode ((viewLevels net (bit / 64) (g4Mask (net.width - 64 * (bit / 64)))).top (bit % 64))

/-- The lower end of the interval that a byte stands for. -/
def codeLo (code : ℕ) : ℤ := code % 16 - 7

/-- The upper end. -/
def codeHi (code : ℕ) : ℤ := code / 16 - 7

/-! ## The two decisions -/

/-- The levels that a search can return for a bit. -/
structure TopLevels.Valid (top : TopLevels) : Prop where
  known0 : -1 ≤ top.k0 ∧ top.k0 ≠ 0 ∧ top.k0 ≤ top.p0
  known1 : -1 ≤ top.k1 ∧ top.k1 ≠ 0 ∧ top.k1 ≤ top.p1
  possible0 : top.p0 ≠ 0 ∧ top.p0 ≤ 7
  possible1 : top.p1 ≠ 0 ∧ top.p1 ≤ 7

/-- An end of the hull is the possible level of its side, or else the known one of the other side. -/
lemma hullEnd_cases (ties : Bool) {p k : ℤ} (hp : -1 ≤ p ∧ p ≠ 0) (hk : -1 ≤ k ∧ k ≠ 0) :
    (0 < p ∧ (k < p ∨ (ties = true ∧ k = p)) ∧ hullEnd ties p k = p) ∨
      (0 < k ∧ (p < k ∨ (ties = false ∧ p = k)) ∧ hullEnd ties p k = -k) ∨
      (p < 0 ∧ k < 0 ∧ hullEnd ties p k = 0) := by
  cases ties <;> simp only [hullEnd, reduceCtorEq, Bool.false_eq_true, if_true, if_false, true_and,
    false_and, or_false] <;> split_ifs <;> omega

/-- Which side of a net of the given kind wins a tie of the strengths in the hull: the zeros, the ones. -/
def hullTies : ResolveMode → Bool × Bool
  | .wand => (true, false)
  | .wor => (false, true)
  | _ => (true, true)

lemma strengthHull_eq (mode : ResolveMode) (top : TopLevels) :
    strengthHull mode top =
      strengthCode (-hullEnd (hullTies mode).1 top.p0 top.k1) (hullEnd (hullTies mode).2 top.p1 top.k0) := by
  cases mode <;> rfl

/-- The value, in the words of the hull: a side wins if the other one cannot tie or beat it. -/
lemma resolveBit_eq_iff (mode : ResolveMode) {top : TopLevels} (h : top.Valid) :
    (resolveBit mode top = .z ↔ top.p0 < 0 ∧ top.p1 < 0) ∧
      (resolveBit mode top = .zero ↔
        0 < top.k0 ∧ (top.p1 < top.k0 ∨ ((hullTies mode).2 = false ∧ top.p1 = top.k0))) ∧
      (resolveBit mode top = .one ↔
        0 < top.k1 ∧ (top.p0 < top.k1 ∨ ((hullTies mode).1 = false ∧ top.p0 = top.k1))) := by
  obtain ⟨⟨h1, h2, h3⟩, ⟨h4, h5, h6⟩, -, -⟩ := h
  cases mode <;> simp only [resolveBit, hullTies] <;> split_ifs <;> simp <;> omega

lemma code_ends {lo hi : ℤ} (hlo : -7 ≤ lo ∧ lo ≤ 7) (hhi : -7 ≤ hi ∧ hi ≤ 7) :
    codeLo (strengthCode lo hi) = lo ∧ codeHi (strengthCode lo hi) = hi := by
  have hcode : strengthCode lo hi = 16 * (hi + 7).toNat + (lo + 7).toNat := by
    rw [strengthCode, ← Nat.shiftLeft_add_eq_or_of_lt (by omega), Nat.shiftLeft_eq]
    omega
  rw [codeLo, codeHi, hcode]
  omega

/-- An interval of levels lies where a state is: below zero, above zero, at zero, or across zero. -/
def Shows (lo hi : ℤ) (state : NetState) : Prop :=
  lo ≤ hi ∧ (hi < 0 ↔ state = .zero) ∧ (0 < lo ↔ state = .one) ∧ (lo = 0 ∧ hi = 0 ↔ state = .z) ∧
    (lo ≤ 0 ∧ 0 ≤ hi ∧ ¬(lo = 0 ∧ hi = 0) ↔ state = .x)

/-- The interval of the view lies where the value is. -/
lemma hull_agrees (mode : ResolveMode) {top : TopLevels} (h : top.Valid) :
    Shows (codeLo (strengthHull mode top)) (codeHi (strengthHull mode top)) (resolveBit mode top) := by
  obtain ⟨hz, hzero, hone⟩ := resolveBit_eq_iff mode h
  obtain ⟨⟨h1, h2, h3⟩, ⟨h4, h5, h6⟩, ⟨h7, h8⟩, ⟨h9, h10⟩⟩ := h
  have hlo := hullEnd_cases (hullTies mode).1 (p := top.p0) (k := top.k1) ⟨by omega, h7⟩ ⟨h4, h5⟩
  have hhi := hullEnd_cases (hullTies mode).2 (p := top.p1) (k := top.k0) ⟨by omega, h9⟩ ⟨h1, h2⟩
  rw [strengthHull_eq]
  generalize hullEnd (hullTies mode).1 top.p0 top.k1 = lo at *
  generalize hullEnd (hullTies mode).2 top.p1 top.k0 = hi at *
  have hties : (hullTies mode).1 = true ∨ (hullTies mode).2 = true := by
    cases mode <;> simp [hullTies]
  obtain ⟨hl, hh⟩ := @code_ends (-lo) hi (by omega) (by omega)
  rw [hl, hh, Shows]
  generalize resolveBit mode top = state at *
  generalize (hullTies mode).1 = ties0 at *
  generalize (hullTies mode).2 = ties1 at *
  cases state <;> cases ties0 <;> cases ties1 <;>
    simp only [reduceCtorEq, Bool.false_eq_true, true_iff, iff_true, false_iff, iff_false, true_and, false_and,
      or_false, or_self] at hties hz hzero hone hlo hhi ⊢ <;> omega

/-! ## The tables -/

lemma sv4LimbMask_eq (w i : ℕ) : sv4LimbMask w i = g4Mask (w - 64 * i) := by
  refine BitVec.eq_of_getLsbD_eq fun j hj => ?_
  simp only [sv4LimbMask, getLsbD_g4Mask]
  split_ifs
  · rw [decide_eq_false (by omega)]
    exact BitVec.getLsbD_zero
  · rw [getLsbD_g4Mask, decide_eq_decide]
    omega
  · rw [BitVec.getLsbD_allOnes, decide_eq_decide]
    omega

lemma getLsbD_llgSv4PlaneWord (v : Sv4) (i j : ℕ) (plane : Sv4Plane) :
    (llgSv4PlaneWord v i plane).getLsbD j = (decide (j < 64) && (v.plane plane).getLsbD (64 * i + j)) := by
  rw [llgSv4PlaneWord, BitVec.getLsbD_setWidth, BitVec.getLsbD_ushiftRight]

/-- Within the words of a driver the two loops take the same from it. -/
lemma viewDriver_eq {v : Sv4} {i : ℕ} (h : i < llgSv4Words v) (m : BitVec 64) :
    viewDriver v i m = resolveDriver v i m := by
  have hx : llgSv4PlaneWord v i .x &&& g4Mask (v.width - 64 * i) = llgSv4PlaneWord v i .x := by
    refine BitVec.eq_of_getLsbD_eq fun j hj => ?_
    rw [BitVec.getLsbD_and, getLsbD_g4Mask, getLsbD_llgSv4PlaneWord]
    rcases Nat.lt_or_ge (64 * i + j) v.width with hlt | hge
    · rw [decide_eq_true (p := j < v.width - 64 * i ∧ j < 64) (by omega), Bool.and_true]
    · rw [BitVec.getLsbD_of_ge _ _ hge, Bool.and_false, Bool.false_and]
  simp only [viewDriver, resolveDriver, if_pos h, sv4LimbMask_eq, hx]

/-- A driver contributes nothing past its words. -/
lemma viewDriver_of_ge {v : Sv4} {i : ℕ} (h : llgSv4Words v ≤ i) (m : BitVec 64) :
    viewDriver v i m = ⟨0, 0, 0⟩ := by
  simp only [viewDriver, if_neg (Nat.not_lt.2 h), DriverWord.mk.injEq]
  refine ⟨?_, ?_, ?_⟩ <;> refine BitVec.eq_of_getLsbD_eq fun j hj => ?_ <;>
    cases hm : m.getLsbD j <;>
    simp only [BitVec.getLsbD_and, BitVec.getLsbD_or, BitVec.getLsbD_not, BitVec.ofNat_eq_ofNat,
      BitVec.getLsbD_zero, hm, hj, decide_true, Bool.not_false, Bool.and_true, Bool.or_true, Bool.and_false,
      Bool.not_true]

lemma orAt_zero (table : ℕ → BitVec 64) (level : ℕ) : orAt table level 0 = table := by
  rw [orAt, show table level ||| (0 : BitVec 64) = table level from BitVec.or_zero, Function.update_eq_self]

lemma Levels.add_zero (levels : Levels) (s0 s1 : ℕ) : levels.add ⟨0, 0, 0⟩ s0 s1 = levels := by
  have hor : (0 : BitVec 64) ||| 0 = 0 := BitVec.or_zero
  simp only [Levels.add, hor, orAt_zero, ite_self]

variable {levels : Levels} {net : StrengthNet}

/-- With strengths, the value and the view start from the same tables. -/
lemma viewLevels_eq (h : net.strengths = true) (i : ℕ) (m : BitVec 64) :
    viewLevels net i m = resolveLevels net i m := by
  rw [viewLevels, resolveLevels]
  congr 1
  funext levels d
  cases d.value with
  | none => rfl
  | some =>
    simp only [h, if_true]
    split_ifs with hi
    · rw [viewDriver_of_ge hi, Levels.add_zero]
    · rw [viewDriver_eq (Nat.not_le.1 hi)]

/-- A known level of a bit is a possible one. -/
def Levels.Nested (levels : Levels) : Prop :=
  ∀ s j, ((levels.known0 s).getLsbD j = true → (levels.possible0 s).getLsbD j = true) ∧
    ((levels.known1 s).getLsbD j = true → (levels.possible1 s).getLsbD j = true)

lemma getLsbD_orAt (table : ℕ → BitVec 64) (level s j : ℕ) (bits : BitVec 64) :
    (orAt table level bits s).getLsbD j =
      ((table s).getLsbD j || (decide (s = level) && bits.getLsbD j)) := by
  by_cases h : s = level
  · subst h
    simp [orAt]
  · simp [orAt, h]

lemma Levels.Nested.add (h : levels.Nested) (d : DriverWord) (s0 s1 : ℕ) :
    (levels.add d s0 s1).Nested := by
  intro s j
  have := h s j
  simp only [Levels.add]
  split_ifs <;> first | exact this | (simp only [getLsbD_orAt, BitVec.getLsbD_or]; grind)

lemma firstLevels_nested (mode : ResolveMode) (m : BitVec 64) : (firstLevels mode m).Nested := by
  intro s j
  cases mode <;> simp [firstLevels]

lemma viewLevels_nested (net : StrengthNet) (i : ℕ) (m : BitVec 64) : (viewLevels net i m).Nested := by
  refine foldlRecOn net.drivers _ (firstLevels_nested net.mode m) fun levels h d _ => ?_
  cases d.value with
  | none => exact h
  | some => exact h.add _ _ _

lemma topLevel_range (has : ℕ → Bool) (n : ℕ) :
    -1 ≤ topLevel has n ∧ topLevel has n ≠ 0 ∧ topLevel has n ≤ n := by
  induction n with
  | zero => simp [topLevel]
  | succ =>
    rw [topLevel]
    split_ifs <;> omega

lemma topLevel_mono {has has' : ℕ → Bool} (h : ∀ s, has s = true → has' s = true) (n : ℕ) :
    topLevel has n ≤ topLevel has' n := by
  induction n with
  | zero => exact le_rfl
  | succ n ih =>
    have := topLevel_range has n
    rw [topLevel, topLevel]
    split_ifs with h1 h2 h2
    · exact le_rfl
    · exact absurd (h _ h1) h2
    · omega
    · exact ih

lemma Levels.Nested.top_valid (h : levels.Nested) (bit : ℕ) : (levels.top bit).Valid where
  known0 := ⟨(topLevel_range ..).1, (topLevel_range ..).2.1, topLevel_mono (fun s => (h s bit).1) _⟩
  known1 := ⟨(topLevel_range ..).1, (topLevel_range ..).2.1, topLevel_mono (fun s => (h s bit).2) _⟩
  possible0 := (topLevel_range ..).2
  possible1 := (topLevel_range ..).2

/-! ## Nets without strengths -/

/-- The tables that strong drivers add to those of a net without drivers. -/
def Levels.Strong (first levels : Levels) (any : DriverWord) : Prop :=
  ∀ s j, (levels.known0 s).getLsbD j = ((first.known0 s).getLsbD j || (decide (s = 6) && any.zeros.getLsbD j)) ∧
    (levels.known1 s).getLsbD j = ((first.known1 s).getLsbD j || (decide (s = 6) && any.ones.getLsbD j)) ∧
    (levels.possible0 s).getLsbD j =
      ((first.possible0 s).getLsbD j || (decide (s = 6) && (any.zeros.getLsbD j || any.x.getLsbD j))) ∧
    (levels.possible1 s).getLsbD j =
      ((first.possible1 s).getLsbD j || (decide (s = 6) && (any.ones.getLsbD j || any.x.getLsbD j)))

lemma Levels.Strong.add {first : Levels} {any : DriverWord} (h : Strong first levels any) (d : DriverWord) :
    Strong first (levels.add d strengthStrong strengthStrong)
      ⟨any.zeros ||| d.zeros, any.ones ||| d.ones, any.x ||| d.x⟩ := by
  intro s j
  have hstrong : (strengthStrong : Fin 8).val = 6 := rfl
  obtain ⟨h1, h2, h3, h4⟩ := h s j
  simp only [Levels.add, hstrong, ne_eq, OfNat.ofNat_ne_zero, not_false_eq_true, if_true, getLsbD_orAt,
    BitVec.getLsbD_or, h1, h2, h3, h4]
  cases decide (s = 6) <;> simp [Bool.or_assoc, Bool.or_left_comm]

lemma viewLevels_strong (h : net.strengths = false) (i : ℕ) (m : BitVec 64) :
    Levels.Strong (firstLevels net.mode m) (viewLevels net i m) (resolveAny net i m) := by
  rw [viewLevels, resolveAny]
  induction net.drivers using reverseRecOn with
  | nil => simp [Levels.Strong]
  | append_singleton drivers d ih =>
    rw [foldl_append, foldl_append, foldl_cons, foldl_nil, foldl_cons, foldl_nil]
    cases d.value with
    | none => exact ih
    | some =>
      simp only [h, Bool.false_eq_true, if_false] at ih ⊢
      split_ifs with hi
      · rw [viewDriver_of_ge hi, Levels.add_zero]
        exact ih
      · rw [viewDriver_eq (Nat.not_le.1 hi)]
        exact ih.add _

/-- Without strengths, the value is what the tables give for strong drivers. -/
lemma sv4ResolveBit_eq (h : net.strengths = false) {bit : ℕ} (hbit : bit < net.width) :
    sv4ResolveBit net bit =
      resolveBit net.mode ((viewLevels net (bit / 64) (g4Mask (net.width - 64 * (bit / 64)))).top (bit % 64)) := by
  have hm : (g4Mask (net.width - 64 * (bit / 64))).getLsbD (bit % 64) = true := by
    rw [getLsbD_g4Mask]
    exact decide_eq_true (by omega)
  have hlevels := fun s => viewLevels_strong h (bit / 64) (g4Mask (net.width - 64 * (bit / 64))) s (bit % 64)
  simp only [sv4ResolveBit, sv4LimbMask_eq, Levels.top, hlevels]
  generalize resolveAny net (bit / 64) (g4Mask (net.width - 64 * (bit / 64))) = any
  cases net.mode <;>
    simp only [plainWord, planeState, firstLevels, getLsbD_orAt, BitVec.getLsbD_or, BitVec.getLsbD_and,
      BitVec.getLsbD_not, BitVec.ofNat_eq_ofNat, BitVec.getLsbD_zero, hm, Nat.mod_lt bit (show 64 > 0 by decide), decide_true,
      reduceCtorEq, if_false, if_true, false_or, or_false, Bool.true_and, Bool.and_true,
      Bool.false_or] <;>
    generalize any.zeros.getLsbD (bit % 64) = a0 <;> generalize any.ones.getLsbD (bit % 64) = a1 <;>
    generalize any.x.getLsbD (bit % 64) = ax <;> revert a0 a1 ax <;> decide

/-- The strength view of a bit of a net shows the value that the drivers resolve to: the interval is below zero
for 0, above zero for 1, the level zero for Z, and reaches zero from a side or crosses it for X. -/
theorem strengthView_agrees (net : StrengthNet) (bit : Fin net.width) :
    Shows (codeLo (strengthView net bit)) (codeHi (strengthView net bit)) (resolvedState net bit) := by
  have hresolved : resolvedState net bit = resolveBit net.mode
      ((viewLevels net (bit / 64) (g4Mask (net.width - 64 * (bit / 64)))).top (bit % 64)) := by
    cases hs : net.strengths with
    | true => rw [resolvedState, hs, if_pos rfl, sv4LimbMask_eq, viewLevels_eq hs]
    | false =>
      rw [resolvedState, hs]
      exact sv4ResolveBit_eq hs bit.is_lt
  rw [hresolved]
  exact hull_agrees net.mode ((viewLevels_nested net _ _).top_valid _)

end Lapligence.Value
