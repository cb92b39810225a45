import Lapligence.Framework.LinearProbing
import Lapligence.Value.Sv4

/-!
# Distinct elements

The methods `unique` and `unique_index` (`llg_method_assign_values` and what it calls in
`container/method_gather.c`): an open-addressing table of positions, keyed by a hash of the element's key, marks
the first position of each class of equal keys.  The table holds a position plus one, and zero where the code
has `SIZE_MAX`.

Keys are equal if their planes are, extended with zeros (`sv4Same_iff`), and equal keys have equal hashes
(`llgMethodSv4Hash_congr`); `Marked` is the invariant of the loop over the positions.
-/

namespace Lapligence.Container

open LinearProbing Value Function BitVec List

/-! ## Hashes -/

/-- `llg_method_mix`. -/
def llgMethodMix (hash word : BitVec 64) : BitVec 64 :=
  hash ^^^ (word + 0x9e3779b97f4a7c15#64 + hash <<< 6 + hash >>> 2)

/-- The three planes of a word. -/
def planeWords (v : Sv4) (i : ℕ) : BitVec 64 × BitVec 64 × BitVec 64 :=
  (llgSv4PlaneWord v i .bits, llgSv4PlaneWord v i .x, llgSv4PlaneWord v i .z)

/-- The words up to the last one with a state set. -/
def usedWords (v : Sv4) : ℕ → ℕ
  | 0 => 0
  | words + 1 => if planeWords v words = (0, 0, 0) then usedWords v words else words + 1

/-- `llg_method_sv4_hash`. -/
def llgMethodSv4Hash (v : Sv4) : BitVec 64 :=
  (range (usedWords v (llgSv4Words v))).foldl (fun hash i =>
    let (bits, x, z) := planeWords v i
    llgMethodMix (llgMethodMix (llgMethodMix hash bits) x) z) 0xcbf29ce484222325#64

/-! ## The table -/

/-- The loop that doubles the capacity; `none` if it would overflow. -/
def capacityLoop (count : ℕ) : ℕ → ℕ → Option ℕ
  | 0, _ => none
  | fuel + 1, capacity =>
    if capacity < count * 2 then
      if capacity > (2 ^ 64 - 1) / 2 then none else capacityLoop count fuel (capacity * 2)
    else some capacity

/-- A position is looked up in the table, and marked if it is not found; `none` if the search does not end. -/
def markPosition (capacity : ℕ) (hashes : ℕ → BitVec 64) (same : ℕ → ℕ → Bool)
    (state : (ℕ → ℕ) × (ℕ → Bool)) (position : ℕ) : Option ((ℕ → ℕ) × (ℕ → Bool)) :=
  let accept := fun entry => hashes (entry - 1) = hashes position ∧ same (entry - 1) position
  match probe state.1 capacity accept capacity ((hashes position).toNat &&& (capacity - 1)) with
  | .exhausted => none
  | .found _ => some state
  | .vacant slot =>
    some (update state.1 slot (position + 1), update state.2 position true)

/-- `llg_method_mark_distinct`: the positions to keep. -/
def llgMethodMarkDistinct (count : ℕ) (hashes : ℕ → BitVec 64) (same : ℕ → ℕ → Bool) : Option (ℕ → Bool) := do
  let capacity ← capacityLoop count 61 16
  let (_, keep) ← (range count).foldlM (markPosition capacity hashes same)
    (fun _ => 0, fun _ => false)
  return keep

/-- `sizeof(sv4_t)`. -/
def sizeofSv4 : ℕ := 24

/-- `sv4_from_u64`. -/
def sv4FromU64 (value width : ℕ) (signed : Bool) : Sv4 :=
  ⟨width, signed, BitVec.ofNat width (value % 2 ^ 64), 0⟩

/-- What `llg_method_assign_values` works on: the values, the indices of an associative array, and the function
that evaluates the keys. -/
structure MethodSource where
  values : List Sv4
  indices : Option (List Sv4)
  eval : Sv4 → Sv4 → Sv4

namespace MethodSource

variable (src : MethodSource)

def valueAt (i : ℕ) : Sv4 := src.values.getD i ⟨0, false, 0, 0⟩

/-- The index of an element; that of an array is an `int`. -/
def indexAt (i : ℕ) : Sv4 :=
  match src.indices with
  | some indices => indices.getD i ⟨0, false, 0, 0⟩
  | none => sv4FromU64 i 32 true

def keyAt (i : ℕ) : Sv4 := src.eval (src.valueAt i) (src.indexAt i)

end MethodSource

/-- `llg_method_assign_values` for `unique` and, with `index`, `unique_index`; `none` if memory cannot hold the
keys. -/
def llgMethodUnique (index : Bool) (src : MethodSource) : Option (List Sv4) :=
  if src.values.length > (2 ^ 64 - 1) / sizeofSv4 then none
  else do
    let keep ← llgMethodMarkDistinct src.values.length (fun i => llgMethodSv4Hash (src.keyAt i))
      fun i j => sv4Same (src.keyAt i) (src.keyAt j)
    return ((range src.values.length).filter keep).map (if index then src.indexAt else src.valueAt)

/-! ## Equal keys -/

lemma planeWords_of_ge {v : Sv4} {i : ℕ} (h : llgSv4Words v ≤ i) : planeWords v i = (0, 0, 0) := by
  have hwidth : v.width ≤ 64 * i := by
    rw [llgSv4Words] at h
    omega
  have hzero : ∀ plane, llgSv4PlaneWord v i plane = 0 := by
    intro plane
    rw [llgSv4PlaneWord, ushiftRight_eq_zero hwidth]
    exact setWidth_zero ..
  simp only [planeWords, hzero]

/-- Keys are the same if all their words are. -/
lemma sv4Same_iff_words (a b : Sv4) : sv4Same a b = true ↔ ∀ i, planeWords a i = planeWords b i := by
  have hsame : sv4Same a b = true ↔
      ∀ i < max (llgSv4Words a) (llgSv4Words b), planeWords a i = planeWords b i := by
    simp [sv4Same, planeWords]
  rw [hsame]
  refine ⟨fun h i => ?_, fun h i _ => h i⟩
  rcases lt_or_ge i (max (llgSv4Words a) (llgSv4Words b)) with hlt | hge
  · exact h i hlt
  · rw [planeWords_of_ge ((le_max_left ..).trans hge), planeWords_of_ge ((le_max_right ..).trans hge)]

/-- Case equality of values, the narrower one extended with zeros: the planes agree in every bit. -/
def SameBits (a b : Sv4) : Prop :=
  ∀ plane j, (a.plane plane).getLsbD j = (b.plane plane).getLsbD j

lemma sv4Same_iff (a b : Sv4) : sv4Same a b = true ↔ SameBits a b := by
  have hplanes : (∀ i, planeWords a i = planeWords b i) ↔
      ∀ plane i, llgSv4PlaneWord a i plane = llgSv4PlaneWord b i plane := by
    simp only [planeWords, Prod.mk.injEq]
    exact ⟨fun h plane i => by cases plane; exacts [(h i).1, (h i).2.1, (h i).2.2],
      fun h i => ⟨h _ i, h _ i, h _ i⟩⟩
  rw [sv4Same_iff_words, hplanes]
  refine forall_congr' fun plane => ⟨fun h j => ?_, fun h i => eq_of_getLsbD_eq fun j _ => ?_⟩
  · have hword := congrArg (·.getLsbD (j % 64)) (h (j / 64))
    simpa only [llgSv4PlaneWord, getLsbD_setWidth, getLsbD_ushiftRight, Nat.div_add_mod,
      Nat.mod_lt j (show 64 > 0 by decide), decide_true, Bool.true_and] using hword
  · simp only [llgSv4PlaneWord, getLsbD_setWidth, getLsbD_ushiftRight, h]

/-- Equal keys have equal hashes, whatever their widths. -/
lemma llgMethodSv4Hash_congr {a b : Sv4} (h : sv4Same a b = true) : llgMethodSv4Hash a = llgMethodSv4Hash b := by
  have hwords := (sv4Same_iff_words a b).1 h
  have hextend : ∀ (v : Sv4) (k : ℕ), usedWords v (llgSv4Words v + k) = usedWords v (llgSv4Words v) := by
    intro v k
    induction k with
    | zero => rfl
    | succ k ih =>
      rw [← add_assoc, usedWords, if_pos (planeWords_of_ge (Nat.le_add_right ..)), ih]
  have hused : ∀ n, usedWords a n = usedWords b n := by
    intro n
    induction n with
    | zero => rfl
    | succ n ih => rw [usedWords, usedWords, hwords, ih]
  have hcount : usedWords a (llgSv4Words a) = usedWords b (llgSv4Words b) := by
    rw [← hextend a (llgSv4Words b), ← hextend b (llgSv4Words a), add_comm, hused]
  simp only [llgMethodSv4Hash, hcount, hwords]

/-! ## The loop -/

section Marking

variable {capacity : ℕ} {hashes : ℕ → BitVec 64} {same : ℕ → ℕ → Bool} {table : ℕ → ℕ} {keep : ℕ → Bool}

/-- Nothing before the position is the same. -/
def FirstOfClass (same : ℕ → ℕ → Bool) (position : ℕ) : Prop :=
  ∀ other < position, same other position = false

/-- The state of the loop before a position: the first of each class is kept and can be found in the table. -/
structure Marked (capacity : ℕ) (hashes : ℕ → BitVec 64) (same : ℕ → ℕ → Bool) (position : ℕ)
    (table : ℕ → ℕ) (keep : ℕ → Bool) : Prop where
  keeps : ∀ q, keep q = true ↔ q < position ∧ FirstOfClass same q
  holds : Holds table capacity (fun entry => (hashes (entry - 1)).toNat)
    fun entry => entry ≠ 0 ∧ keep (entry - 1) = true

/-- One position of the loop, for a relation that the hashes respect. -/
lemma Marked.step {position : ℕ} (h : Marked capacity hashes same position table keep)
    (hload : position < capacity) (hpow : ∃ k, capacity = 2 ^ k)
    (htrans : ∀ i j k, same i j = true → same j k = true → same i k = true)
    (hhash : ∀ i j, same i j = true → hashes i = hashes j) :
    ∃ table' keep', markPosition capacity hashes same (table, keep) position = some (table', keep') ∧
      Marked capacity hashes same (position + 1) table' keep' := by
  have hnew : ¬keep position = true := fun hkeep => absurd ((h.keeps position).1 hkeep).1 (lt_irrefl _)
  have hrange : ∀ entry, entry ≠ 0 ∧ keep (entry - 1) = true → 1 ≤ entry ∧ entry < position + 1 := by
    rintro entry ⟨hpos, hkeep⟩
    have := ((h.keeps _).1 hkeep).1
    omega
  have hmask : (hashes position).toNat &&& (capacity - 1) = (hashes position).toNat % capacity := by
    obtain ⟨k, rfl⟩ := hpow
    exact Nat.and_two_pow_sub_one_eq_mod ..
  have hothers : ∀ q, q ≠ position → (q < position ∧ FirstOfClass same q ↔
      q < position + 1 ∧ FirstOfClass same q) := fun q hne => and_congr_left fun _ => by omega
  simp only [markPosition, hmask]
  rcases h.holds.probe_cases hrange hload
      (fun entry => hashes (entry - 1) = hashes position ∧ same (entry - 1) position)
      (hashes position).toNat with
    ⟨entry, ⟨-, hkeep⟩, haccept, hprobe⟩ | ⟨k, hk, hvacant, hbefore, hprobe, hnone⟩
  · rw [hprobe]
    refine ⟨table, keep, rfl, fun q => ?_, h.holds⟩
    rcases eq_or_ne q position with rfl | hne
    · have hsame := (decide_eq_true_iff.1 haccept).2
      refine iff_of_false hnew fun hq => ?_
      rw [hq.2 _ ((h.keeps _).1 hkeep).1] at hsame
      cases hsame
    · rw [h.keeps, hothers q hne]
  · -- the first of an earlier class would have been found on the way
    have hfirst : FirstOfClass same position := by
      by_contra hnot
      have hex : ∃ q, q < position ∧ same q position = true := by
        simpa [FirstOfClass] using hnot
      classical
      obtain ⟨hq, hsame⟩ := Nat.find_spec hex
      have hkeep : keep (Nat.find hex) = true := by
        refine (h.keeps _).2 ⟨hq, fun r hr => Bool.eq_false_of_not_eq_true fun hrq => ?_⟩
        exact Nat.find_min hex hr ⟨hr.trans hq, htrans r _ position hrq hsame⟩
      have hrefused := hnone (Nat.find hex + 1) ⟨Nat.succ_ne_zero _, hkeep⟩
        (by rw [Nat.add_sub_cancel, hhash _ _ hsame])
      simp [hhash _ _ hsame, hsame] at hrefused
    rw [hprobe]
    refine ⟨_, _, rfl, fun q => ?_, ?_⟩
    · rcases eq_or_ne q position with rfl | hne
      · simp [hfirst]
      · rw [update_of_ne hne, h.keeps, hothers q hne]
    · refine (h.holds.insert (Nat.succ_ne_zero position) (fun hold => hnew hold.2) hk hvacant
        hbefore).congr fun entry => ?_
      rcases eq_or_ne entry (position + 1) with rfl | hne
      · simp
      · rcases Nat.eq_zero_or_pos entry with rfl | hpos
        · simp
        · rw [update_of_ne (by omega), or_iff_left hne]

/-- The table is a power of two, of more than the positions it will hold. -/
lemma capacityLoop_spec {count fuel k : ℕ} (hcount : count * 2 ≤ 2 ^ 63) (hk : k ≤ 63) (hfuel : k + fuel = 65) :
    ∃ k', capacityLoop count fuel (2 ^ k) = some (2 ^ k') ∧ count * 2 ≤ 2 ^ k' := by
  induction fuel generalizing k with
  | zero => omega
  | succ fuel ih =>
    rw [capacityLoop]
    split_ifs with hsmall hlarge
    · have := hsmall.trans_le hcount
      omega
    · have hk' : k < 63 := (Nat.pow_lt_pow_iff_right (by decide)).1 (hsmall.trans_le hcount)
      rw [← pow_succ]
      exact ih (by omega) (by omega)
    · exact ⟨k, rfl, Nat.not_lt.1 hsmall⟩

end Marking

/-- `unique` and `unique_index` return the elements, or their indices, that are the first of their class of equal
keys, in their order.  Equal keys are those with the same bits, and they have the same hash. -/
theorem unique_first_of_class (index : Bool) (src : MethodSource) :
    (∀ a b, sv4Same a b = true ↔ SameBits a b) ∧
    (∀ a b, sv4Same a b = true → llgMethodSv4Hash a = llgMethodSv4Hash b) ∧
    llgMethodUnique index src =
      if src.values.length > (2 ^ 64 - 1) / sizeofSv4 then none
      else some (((range src.values.length).filter fun i =>
        decide (∀ j < i, sv4Same (src.keyAt j) (src.keyAt i) = false)).map
          (if index then src.indexAt else src.valueAt)) := by
  refine ⟨sv4Same_iff, fun _ _ => llgMethodSv4Hash_congr, ?_⟩
  rw [llgMethodUnique]
  by_cases hsize : src.values.length > (2 ^ 64 - 1) / sizeofSv4
  · rw [if_pos hsize, if_pos hsize]
  rw [if_neg hsize, if_neg hsize]
  have hcount : src.values.length * 2 ≤ 2 ^ 63 := by
    rw [sizeofSv4] at hsize
    omega
  obtain ⟨k, hcapacity, hk⟩ := capacityLoop_spec hcount (show 4 ≤ 63 by decide) (show 4 + 61 = 65 from rfl)
  -- the loop over the positions keeps the invariant
  have hloop : ∀ n ≤ src.values.length, ∃ table keep,
      (range n).foldlM (markPosition (2 ^ k) (fun i => llgMethodSv4Hash (src.keyAt i))
        fun i j => sv4Same (src.keyAt i) (src.keyAt j)) (fun _ => 0, fun _ => false) = some (table, keep) ∧
      Marked (2 ^ k) (fun i => llgMethodSv4Hash (src.keyAt i))
        (fun i j => sv4Same (src.keyAt i) (src.keyAt j)) n table keep := by
    intro n hn
    induction n with
    | zero => exact ⟨_, _, rfl, by simp, by simp, by simp, by simp, by simp⟩
    | succ n ih =>
      obtain ⟨table, keep, hfold, hmarked⟩ := ih (by omega)
      obtain ⟨table', keep', hstep, hmarked'⟩ := hmarked.step (by omega) ⟨k, rfl⟩
        (fun i j l h1 h2 => by
          rw [sv4Same_iff] at h1 h2 ⊢
          exact fun plane b => (h1 plane b).trans (h2 plane b))
        (fun i j h1 => llgMethodSv4Hash_congr h1)
      refine ⟨table', keep', ?_, hmarked'⟩
      rw [range_succ, foldlM_append, hfold]
      simp [hstep]
  obtain ⟨table, keep, hfold, hmarked⟩ := hloop _ le_rfl
  rw [llgMethodMarkDistinct, show (16 : ℕ) = 2 ^ 4 from rfl, hcapacity]
  simp only [Option.bind_eq_bind, Option.bind_some, hfold, Option.pure_def, Option.some.injEq]
  congr 1
  refine filter_congr fun i hi => ?_
  rw [Bool.eq_iff_iff, hmarked.keeps, decide_eq_true_iff]
  exact and_iff_right (mem_range.1 hi)

end Lapligence.Container
