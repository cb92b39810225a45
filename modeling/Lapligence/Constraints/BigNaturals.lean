import Lapligence.Constraints.DistSizes

/-!
# Multi-word naturals

The counts of models are naturals of a fixed number of 64-bit limbs (`bn_*` in
`constraints/bdd.c`).  `Stores limbs ws v` says that the `limbs` words of `ws` store `v`; there is
one specification lemma for each function, exact as long as the result fits.

A uniform integer below a bound is drawn by rejection: `bnUniform` fills as many bits as the bound
has from 32-bit draws and starts again when the number is not below the bound.
-/

namespace Lapligence.Constraints

open WordLists List Nat

/-! ## The model -/

def bnShl (a : Words) (k limbs : ℕ) : Words :=
  let ws := k / 64
  let bs := k % 64
  (List.range limbs).map fun i =>
    if i ≥ ws then
      (a.getD (i - ws) 0 <<< bs) |||
        (if bs ≠ 0 ∧ i > ws then a.getD (i - ws - 1) 0 >>> (64 - bs) else 0)
    else 0

def bnShr (d : Words) (k limbs : ℕ) : Words :=
  let ws := k / 64
  let bs := k % 64
  (List.range limbs).map fun i =>
    if i + ws < limbs then
      (d.getD (i + ws) 0 >>> bs) |||
        (if bs ≠ 0 ∧ i + ws + 1 < limbs then d.getD (i + ws + 1) 0 <<< (64 - bs) else 0)
    else 0

/-- `bn_sub` on the first `limbs` words of `d`. -/
def bnSub (d a : Words) (limbs : ℕ) : Words :=
  bvSubWords (d.take limbs) (a.take limbs) false ++ d.drop limbs

def bnCmp (a b : Words) (limbs : ℕ) : Ordering := bvUcmp (a.take limbs) (b.take limbs)

/-- `bn_bits`, the loops of `bn_top_bit` over `limbs` words. -/
def bnBits (a : Words) (limbs : ℕ) : ℕ := bnTopBit (a.take limbs)

/-- The first `n` draws of an attempt of `bn_uniform`, two to a word; `draw` is the stream of 32-bit
draws and `cursor` the number of those already taken. -/
def bnChunks (draw : ℕ → BitVec 32) (cursor limbs : ℕ) : ℕ → Words
  | 0 => List.replicate limbs 0
  | chunk + 1 => (bnChunks draw cursor limbs chunk).modify (chunk / 2)
      (· ||| ((draw (cursor + chunk)).setWidth 64 <<< (32 * (chunk % 2))))

/-- One attempt of `bn_uniform`. -/
def bnAttempt (draw : ℕ → BitVec 32) (cursor bits limbs : ℕ) : Words :=
  let out := bnChunks draw cursor limbs ((bits + 31) / 32)
  let out := if bits % 64 ≠ 0 then out.modify ((bits - 1) / 64) (· &&& ((1#64 <<< (bits % 64)) - 1))
    else out
  out.take ((bits + 63) / 64) ++ List.replicate (limbs - (bits + 63) / 64) 0

/-- `bn_uniform` with at most `attempts` attempts: the number and the new cursor. -/
def bnUniform (draw : ℕ → BitVec 32) (bound : Words) (limbs : ℕ) : ℕ → ℕ → Option (Words × ℕ)
  | 0, _ => none
  | attempts + 1, cursor =>
    let bits := bnBits bound limbs
    let out := bnAttempt draw cursor bits limbs
    let cursor := cursor + (bits + 31) / 32
    if bnCmp out bound limbs = .lt then some (out, cursor)
    else bnUniform draw bound limbs attempts cursor

/-! ## Specifications -/

/-- The `limbs` words of `ws` store `v`. -/
structure Stores (limbs : ℕ) (ws : Words) (v : ℕ) : Prop where
  length : ws.length = limbs
  value : wordsNat ws = v

variable {limbs : ℕ} {a b : Words} {x y : ℕ}

lemma Stores.lt (h : Stores limbs a x) : x < 2 ^ (64 * limbs) := by
  rw [← h.value, ← h.length]
  exact wordsNat_lt a

lemma stores_zero (limbs : ℕ) : Stores limbs (List.replicate limbs 0) 0 :=
  ⟨length_replicate, wordsNat_replicate_zero limbs⟩

/-- A list of words given by the bits of a number that fits. -/
lemma stores_of_testBit (hlen : a.length = limbs) (hx : x < 2 ^ (64 * limbs))
    (h : ∀ i < 64 * limbs, (wordsNat a).testBit i = x.testBit i) : Stores limbs a x :=
  ⟨hlen, (eq_iff_testBit (hlen ▸ wordsNat_lt a) hx).2 h⟩

/-- Every number that fits is stored by some words. -/
lemma exists_stores (hx : x < 2 ^ (64 * limbs)) : ∃ ws, Stores limbs ws x := by
  refine ⟨(List.range limbs).map fun k => BitVec.ofNat 64 (x / 2 ^ (64 * k)),
    stores_of_testBit (by simp) hx fun i hi => ?_⟩
  rw [testBit_wordsNat_map_range, decide_eq_true (by omega), Bool.true_and, BitVec.getLsbD_ofNat,
    decide_eq_true (mod_lt i (by norm_num)), Bool.true_and, testBit_div_two_pow]
  congr 1
  omega

lemma Stores.bnShl (h : Stores limbs a x) {k : ℕ} (hfit : x * 2 ^ k < 2 ^ (64 * limbs)) :
    Stores limbs (bnShl a k limbs) (x * 2 ^ k) := by
  refine stores_of_testBit (by simp [Constraints.bnShl]) hfit fun i hi => ?_
  rw [Constraints.bnShl, testBit_shlWords a k (by omega), h.value, testBit_mul_two_pow]

lemma Stores.bnShr (h : Stores limbs a x) (k : ℕ) : Stores limbs (bnShr a k limbs) (x / 2 ^ k) := by
  refine stores_of_testBit (by simp [Constraints.bnShr])
    ((Nat.div_le_self _ _).trans_lt h.lt) fun i hi => ?_
  rw [Constraints.bnShr, testBit_shrWords a k h.length (by omega), h.value,
    testBit_div_two_pow]

lemma Stores.bnAdd (ha : Stores limbs a x) (hb : Stores limbs b y)
    (hfit : x + y < 2 ^ (64 * limbs)) : Stores limbs (bnAdd a b limbs) (x + y) := by
  have hab := ha.length.trans hb.length.symm
  have hwords : Constraints.bnAdd a b limbs = bvAddWords a b false := by
    rw [Constraints.bnAdd, take_of_length_le ha.length.le, take_of_length_le hb.length.le,
      drop_of_length_le ha.length.le, append_nil]
  have hlen := (length_bvAddWords a b false hab).trans ha.length
  obtain ⟨k, hk⟩ := bvAddWords_eq a b false hab
  rw [ha.value, hb.value, ha.length, Bool.toNat_false, add_zero] at hk
  have hzero : k = 0 := by
    by_contra hne
    have hle : 2 ^ (64 * limbs) ≤ 2 ^ (64 * limbs) * k :=
      Nat.le_mul_of_pos_right _ (pos_of_ne_zero hne)
    omega
  rw [hwords]
  refine ⟨hlen, ?_⟩
  rw [hk, hzero, mul_zero, add_zero]

lemma Stores.bnSub (ha : Stores limbs a x) (hb : Stores limbs b y) (hle : y ≤ x) :
    Stores limbs (bnSub a b limbs) (x - y) := by
  have hab := ha.length.trans hb.length.symm
  have hwords : Constraints.bnSub a b limbs = bvSubWords a b false := by
    rw [Constraints.bnSub, take_of_length_le ha.length.le, take_of_length_le hb.length.le,
      drop_of_length_le ha.length.le, append_nil]
  have hlen := (length_bvSubWords a b false hab).trans ha.length
  obtain ⟨k, hk⟩ := bvSubWords_eq a b false hab
  rw [ha.value, hb.value, ha.length, Bool.toNat_false, add_zero] at hk
  have hlt := hlen ▸ wordsNat_lt (bvSubWords a b false)
  have hzero : k = 0 := by
    by_contra hne
    have hle : 2 ^ (64 * limbs) ≤ 2 ^ (64 * limbs) * k :=
      Nat.le_mul_of_pos_right _ (pos_of_ne_zero hne)
    omega
  rw [hwords]
  refine ⟨hlen, ?_⟩
  rw [hzero, mul_zero, add_zero] at hk
  omega

lemma Stores.bnCmp (ha : Stores limbs a x) (hb : Stores limbs b y) :
    bnCmp a b limbs = compare x y := by
  rw [Constraints.bnCmp, take_of_length_le ha.length.le, take_of_length_le hb.length.le,
    bvUcmp_eq a b (ha.length.trans hb.length.symm), ha.value, hb.value]

lemma Stores.bnCmp_lt (ha : Stores limbs a x) (hb : Stores limbs b y) :
    Constraints.bnCmp a b limbs = .lt ↔ x < y := by
  rw [ha.bnCmp hb, Nat.compare_eq_lt]

/-! ## Uniform integers -/

lemma topBitBelow_le (y : BitVec 64) (b : ℕ) : topBitBelow y b ≤ b := by
  induction b with
  | zero => exact le_rfl
  | succ b ih =>
    unfold topBitBelow
    split_ifs
    · exact le_rfl
    · exact ih.trans (le_succ b)

lemma bnTopBit_le (s : Words) : bnTopBit s ≤ 64 * s.length := by
  induction s with
  | nil => exact le_rfl
  | cons y =>
    have hword := topBitBelow_le y 64
    unfold bnTopBit
    rw [length_cons]
    split
    · split_ifs <;> omega
    · next heq => omega

lemma bnBits_le (a : Words) (limbs : ℕ) : bnBits a limbs ≤ 64 * limbs :=
  (bnTopBit_le _).trans (Nat.mul_le_mul_left 64 (by simp))

section Attempt

variable (draw : ℕ → BitVec 32) (cursor : ℕ)

lemma length_bnChunks (limbs n : ℕ) : (bnChunks draw cursor limbs n).length = limbs := by
  induction n with
  | zero => exact length_replicate
  | succ n ih => rw [bnChunks, length_modify, ih]

lemma testBit_bnChunks {n limbs : ℕ} (hn : n ≤ 2 * limbs) (j : ℕ) :
    (wordsNat (bnChunks draw cursor limbs n)).testBit j =
      (decide (j < 32 * n) && (draw (cursor + j / 32)).getLsbD (j % 32)) := by
  induction n with
  | zero =>
    rw [bnChunks, wordsNat_replicate_zero]
    simp
  | succ n ih =>
    have hold := ih (by omega)
    rw [bnChunks, testBit_wordsNat_modify _ _ _ _ (by rw [length_bnChunks]; omega)]
    by_cases hword : j / 64 = n / 2
    · rw [testBit_wordsNat, hword] at hold
      rw [if_pos hword, BitVec.getLsbD_or, hold, BitVec.getLsbD_shiftLeft, BitVec.getLsbD_setWidth]
      -- below, inside or above the half word that chunk `n` fills
      rcases lt_or_ge j (32 * n) with hlt | hge
      · simp [hlt, show j < 32 * (n + 1) by omega, show j % 64 < 32 * (n % 2) by omega]
      · rcases lt_or_ge j (32 * (n + 1)) with hin | hout
        · simp [hin, show ¬j < 32 * n by omega, show ¬j % 64 < 32 * (n % 2) by omega,
            show j / 32 = n by omega, show j % 64 - 32 * (n % 2) = j % 32 by omega,
            show j % 32 < 64 by omega, mod_lt]
        · rw [BitVec.getLsbD_of_ge (draw (cursor + n)) _ (by omega)]
          simp [show ¬j < 32 * n by omega, show ¬j < 32 * (n + 1) by omega]
    · have hiff : j < 32 * n ↔ j < 32 * (n + 1) := by omega
      rw [if_neg hword, hold]
      simp only [hiff]

variable {bits limbs : ℕ} (hbits : bits ≤ 64 * limbs)

include hbits

/-- **An attempt takes the lowest `bits` bits of the draws.** -/
lemma bnAttempt_spec : (bnAttempt draw cursor bits limbs).length = limbs ∧ ∀ j,
    (wordsNat (bnAttempt draw cursor bits limbs)).testBit j =
      (decide (j < bits) && (draw (cursor + j / 32)).getLsbD (j % 32)) := by
  have hlen := length_bnChunks draw cursor limbs ((bits + 31) / 32)
  have hchunks := @testBit_bnChunks draw cursor ((bits + 31) / 32) limbs (by omega)
  -- masking keeps the length, and the bits from `bits` on go, or are above the words kept
  have hmask : ∀ j, j / 64 < (bits + 63) / 64 → (wordsNat (if bits % 64 ≠ 0 then
      (bnChunks draw cursor limbs ((bits + 31) / 32)).modify ((bits - 1) / 64)
        (· &&& ((1#64 <<< (bits % 64)) - 1))
      else bnChunks draw cursor limbs ((bits + 31) / 32))).testBit j =
        (decide (j < bits) && (draw (cursor + j / 32)).getLsbD (j % 32)) := by
    intro j hj
    have hold := hchunks j
    split_ifs with hrem
    · rw [testBit_wordsNat_modify _ _ _ _ (by omega)]
      split_ifs with hword
      · rw [testBit_wordsNat, hword] at hold
        rw [BitVec.getLsbD_and, hold, getLsbD_lowMask (mod_lt _ (by norm_num))]
        by_cases hin : j < bits
        · simp [hin, show j % 64 < bits % 64 by omega, show j < 32 * ((bits + 31) / 32) by omega]
        · simp [hin, show ¬j % 64 < bits % 64 by omega]
      · rw [hold]
        simp [show j < bits by omega, show j < 32 * ((bits + 31) / 32) by omega]
    · rw [hold]
      simp [show j < bits by omega, show j < 32 * ((bits + 31) / 32) by omega]
  have hmaskLen : (if bits % 64 ≠ 0 then
      (bnChunks draw cursor limbs ((bits + 31) / 32)).modify ((bits - 1) / 64)
        (· &&& ((1#64 <<< (bits % 64)) - 1))
      else bnChunks draw cursor limbs ((bits + 31) / 32)).length = limbs := by
    split_ifs <;> simp [hlen]
  unfold bnAttempt
  dsimp only
  generalize (if bits % 64 ≠ 0 then _ else _) = out at hmask hmaskLen
  refine ⟨by rw [length_append, length_take, length_replicate, hmaskLen]; omega,
    fun j => ?_⟩
  rw [testBit_wordsNat]
  by_cases hj : j / 64 < (bits + 63) / 64
  · rw [← hmask j hj, testBit_wordsNat, getD_append _ _ _ _ (by simp; omega)]
    simp [getD_eq_getElem?_getD, hj]
  · rw [getD_append_right _ _ _ _ (by simp; omega)]
    simp [show ¬j < bits by omega]

end Attempt

/-- **The integer drawn is below the bound.** -/
lemma bnUniform_spec {draw : ℕ → BitVec 32} (hb : Stores limbs b y) :
    ∀ {attempts cursor : ℕ} {out : Words} {cursor' : ℕ},
      bnUniform draw b limbs attempts cursor = some (out, cursor') →
      ∃ x < y, Stores limbs out x := by
  intro attempts
  induction attempts with
  | zero => simp [bnUniform]
  | succ attempts ih =>
    intro cursor out cursor' h
    rw [bnUniform] at h
    have hlen := (bnAttempt_spec draw cursor (bnBits_le b limbs)).1
    split_ifs at h with hlt
    · rw [Option.some.injEq, Prod.mk.injEq] at h
      rw [h.1] at hlt hlen
      have hout : Stores limbs out (wordsNat out) := ⟨hlen, rfl⟩
      exact ⟨_, (hout.bnCmp_lt hb).1 hlt, hout⟩
    · exact ih h

/-- A stream that begins with the draws `c`. -/
def drawsOf {n : ℕ} (c : Fin n → BitVec 32) (i : ℕ) : BitVec 32 := if h : i < n then c ⟨i, h⟩ else 0

/-- Exchanging two results of an attempt: flipping the bits in which they differ. -/
lemma bnAttempt_xor {bits limbs : ℕ} (hbits : bits ≤ 64 * limbs) {d : ℕ} (hd : d < 2 ^ bits)
    (c : Fin ((bits + 31) / 32) → BitVec 32) :
    wordsNat (bnAttempt (drawsOf fun i => c i ^^^ BitVec.ofNat 32 (d / 2 ^ (32 * i.val))) 0 bits limbs)
      = wordsNat (bnAttempt (drawsOf c) 0 bits limbs) ^^^ d := by
  refine eq_of_testBit_eq fun j => ?_
  rw [testBit_xor, (bnAttempt_spec _ _ hbits).2, (bnAttempt_spec _ _ hbits).2]
  by_cases hj : j < bits
  · have hin : 0 + j / 32 < (bits + 31) / 32 := by omega
    have hbit : (d / 2 ^ (32 * (0 + j / 32))).testBit (j % 32) = d.testBit j := by
      rw [testBit_div_two_pow]
      congr 1
      omega
    simp only [hj, decide_true, Bool.true_and, drawsOf, dif_pos hin, BitVec.getLsbD_xor,
      BitVec.getLsbD_ofNat, hbit, mod_lt j (show 0 < 32 by norm_num)]
  · rw [testBit_beyond hd (Nat.le_of_not_lt hj)]
    simp [hj]

/-- **Attempts are uniform**: all numbers of the given bits come from equally many draws. -/
lemma ncard_bnAttempt {bits limbs : ℕ} (hbits : bits ≤ 64 * limbs) {v v' : ℕ} (hv : v < 2 ^ bits)
    (hv' : v' < 2 ^ bits) :
    {c : Fin ((bits + 31) / 32) → BitVec 32 |
        wordsNat (bnAttempt (drawsOf c) 0 bits limbs) = v}.ncard =
      {c : Fin ((bits + 31) / 32) → BitVec 32 |
        wordsNat (bnAttempt (drawsOf c) 0 bits limbs) = v'}.ncard := by
  have hd : v ^^^ v' < 2 ^ bits := xor_lt_two_pow hv hv'
  set flip : (Fin ((bits + 31) / 32) → BitVec 32) → Fin ((bits + 31) / 32) → BitVec 32 :=
    fun c i => c i ^^^ BitVec.ofNat 32 ((v ^^^ v') / 2 ^ (32 * i.val)) with hflip
  have hinvol : ∀ c, flip (flip c) = c := fun c => by
    funext i
    simp only [hflip, BitVec.xor_assoc, BitVec.xor_self, BitVec.xor_zero]
  have hmaps : ∀ c, wordsNat (bnAttempt (drawsOf (flip c)) 0 bits limbs) =
      wordsNat (bnAttempt (drawsOf c) 0 bits limbs) ^^^ (v ^^^ v') := bnAttempt_xor hbits hd
  have himage : flip '' {c | wordsNat (bnAttempt (drawsOf c) 0 bits limbs) = v} =
      {c | wordsNat (bnAttempt (drawsOf c) 0 bits limbs) = v'} := by
    ext c
    constructor
    · rintro ⟨c, hc, rfl⟩
      rw [Set.mem_ofPred_eq] at hc ⊢
      rw [hmaps, hc, ← Nat.xor_assoc, Nat.xor_self, Nat.zero_xor]
    · intro hc
      rw [Set.mem_ofPred_eq] at hc
      refine ⟨flip c, ?_, hinvol c⟩
      rw [Set.mem_ofPred_eq, hmaps, hc, Nat.xor_comm v, ← Nat.xor_assoc, Nat.xor_self,
        Nat.zero_xor]
  rw [← himage]
  exact (Set.ncard_image_of_injective _ (Function.LeftInverse.injective hinvol)).symm

end Lapligence.Constraints
