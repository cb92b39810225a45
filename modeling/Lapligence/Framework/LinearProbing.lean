import Mathlib.Data.Fintype.Card

/-!
# Linear-probing index tables

An *index table* stores natural numbers, the entries of some growing store, in `cap` slots;
the value `0` marks a vacant slot.  Entry `n` is looked for from the slot `hash n % cap`
onwards, one slot at a time and wrapping around.

`probe` is the search loop, `insertEntry` and `reinsert` are insertion and the rebuild of a
table of another capacity.  `Holds` says that a table holds exactly the entries of a set, each
reachable by probing from its own hash, and `Indexed` that the set is `first ≤ n < count`.  The
results a client needs are `probe_cases` (what the loop can return, and that it returns within
`cap` steps while a slot is vacant), `insert` and `Indexed.reinsert`.
-/

namespace Lapligence.LinearProbing

open Function Nat

/-- What one search ends with: an accepted entry, a vacant slot, or neither within the
given number of steps. -/
inductive Outcome where
  | found (entry : ℕ)
  | vacant (slot : ℕ)
  | exhausted
  deriving DecidableEq, Repr

/-- Walk from `slot` until a vacant slot or an entry that `accept`s. -/
def probe (table : ℕ → ℕ) (cap : ℕ) (accept : ℕ → Bool) : ℕ → ℕ → Outcome
  | 0, _ => .exhausted
  | fuel + 1, slot =>
    if table slot = 0 then .vacant slot
    else if accept (table slot) then .found (table slot)
    else probe table cap accept fuel ((slot + 1) % cap)

/-- Store `n` in the first vacant slot at or after its hash. -/
def insertEntry (table : ℕ → ℕ) (cap hash n : ℕ) : ℕ → ℕ :=
  match probe table cap (fun _ => false) cap (hash % cap) with
  | .vacant slot => update table slot n
  | _ => table

/-- The table of `cap` slots that inserting `first, …, n - 1` in order gives. -/
def reinsert (cap : ℕ) (hash : ℕ → ℕ) (first : ℕ) : ℕ → ℕ → ℕ
  | 0 => fun _ => 0
  | n + 1 =>
    if first ≤ n then insertEntry (reinsert cap hash first n) cap (hash n) n
    else reinsert cap hash first n

/-! ## The probe sequence -/

/-- Entry `n` sits `k` slots after its hash, with no vacant slot in between. -/
def Placed (table : ℕ → ℕ) (cap hash n : ℕ) : Prop :=
  ∃ k < cap, table ((hash + k) % cap) = n ∧ ∀ j < k, table ((hash + j) % cap) ≠ 0

/-- What a search started `k` slots after `h` returns, by the length of its walk: every slot
before the last one holds an entry that was not accepted. -/
lemma probe_walk (table : ℕ → ℕ) (cap : ℕ) (accept : ℕ → Bool) (h : ℕ) :
    ∀ fuel k, (∃ i < fuel, (∀ j < i, table ((h + (k + j)) % cap) ≠ 0 ∧
        accept (table ((h + (k + j)) % cap)) = false) ∧
      ((table ((h + (k + i)) % cap) = 0 ∧
          probe table cap accept fuel ((h + k) % cap) = .vacant ((h + (k + i)) % cap)) ∨
        (table ((h + (k + i)) % cap) ≠ 0 ∧ accept (table ((h + (k + i)) % cap)) = true ∧
          probe table cap accept fuel ((h + k) % cap) =
            .found (table ((h + (k + i)) % cap))))) ∨
      ((∀ j < fuel, table ((h + (k + j)) % cap) ≠ 0 ∧
          accept (table ((h + (k + j)) % cap)) = false) ∧
        probe table cap accept fuel ((h + k) % cap) = .exhausted) := by
  intro fuel
  induction fuel with
  | zero => intro k; exact Or.inr ⟨by omega, rfl⟩
  | succ fuel ih =>
    intro k
    by_cases hz : table ((h + k) % cap) = 0
    · exact Or.inl ⟨0, by omega, by omega, Or.inl ⟨hz, by simp [probe, hz]⟩⟩
    by_cases ha : accept (table ((h + k) % cap)) = true
    · exact Or.inl ⟨0, by omega, by omega, Or.inr ⟨hz, ha, by simp [probe, hz, ha]⟩⟩
    have hnext : probe table cap accept (fuel + 1) ((h + k) % cap) =
        probe table cap accept fuel ((h + (k + 1)) % cap) := by
      simp [probe, hz, ha, Nat.add_assoc]
    have hshift : ∀ j, k + (j + 1) = k + 1 + j := by omega
    have hhead : ∀ j, (∀ i < j, table ((h + (k + 1 + i)) % cap) ≠ 0 ∧
        accept (table ((h + (k + 1 + i)) % cap)) = false) →
        ∀ i < j + 1, table ((h + (k + i)) % cap) ≠ 0 ∧
          accept (table ((h + (k + i)) % cap)) = false := by
      intro j hj i hi
      cases i with
      | zero => exact ⟨hz, by simpa using ha⟩
      | succ i => rw [hshift i]; exact hj i (by omega)
    rw [hnext]
    rcases ih (k + 1) with ⟨i, hi, hbefore, hend⟩ | ⟨hall, hex⟩
    · refine Or.inl ⟨i + 1, by omega, hhead i hbefore, ?_⟩
      rw [hshift i]
      exact hend
    · exact Or.inr ⟨hhead fuel hall, hex⟩

lemma exists_offset {cap : ℕ} (h : ℕ) {s : ℕ} (hs : s < cap) : ∃ k < cap, (h + k) % cap = s := by
  have hh : h % cap < cap := mod_lt _ (by omega)
  refine ⟨(s + cap - h % cap) % cap, mod_lt _ (by omega), ?_⟩
  rw [add_mod_mod, ← mod_add_mod, show h % cap + (s + cap - h % cap) = s + cap by omega,
    add_mod_right, mod_eq_of_lt hs]

/-! ## Tables that hold a set of entries -/

/-- The table's occupied slots hold exactly the entries of `P`, each once and each reachable by probing from its
own hash. -/
structure Holds (table : ℕ → ℕ) (cap : ℕ) (hash : ℕ → ℕ) (P : ℕ → Prop) : Prop where
  pos : ∀ n, P n → n ≠ 0
  placed : ∀ n, P n → Placed table cap (hash n) n
  entry : ∀ s < cap, table s ≠ 0 → P (table s)
  distinct : ∀ s < cap, ∀ t < cap, table s ≠ 0 → table s = table t → s = t

variable {table : ℕ → ℕ} {cap first count : ℕ} {hash : ℕ → ℕ} {P Q : ℕ → Prop}

lemma Holds.congr (h : Holds table cap hash P) (heq : ∀ n, P n ↔ Q n) : Holds table cap hash Q :=
  funext (fun n => propext (heq n)) ▸ h

/-- With fewer entries than slots some slot is vacant: otherwise the slots would inject into
the entries. -/
lemma Holds.exists_vacant (h : Holds table cap hash P) (hrange : ∀ n, P n → first ≤ n ∧ n < count)
    (hload : count - first < cap) : ∃ s < cap, table s = 0 := by
  by_contra hnone
  push Not at hnone
  have hentry : ∀ s : Fin cap, first ≤ table s ∧ table s < count := fun s =>
    hrange _ (h.entry s s.2 (hnone s s.2))
  have hmaps : ∀ s : Fin cap, table s - first < count - first := by
    intro s
    have := hentry s
    omega
  have hinj : Injective (fun s : Fin cap => (⟨table s - first, hmaps s⟩ : Fin (count - first))) := by
    intro s t hst
    have hs := hentry s
    have ht := hentry t
    have heq : table s - first = table t - first := congrArg Fin.val hst
    exact Fin.ext (h.distinct s s.2 t t.2 (hnone s s.2) (by omega))
  have hcard := Fintype.card_le_of_injective _ hinj
  simp only [Fintype.card_fin] at hcard
  omega

/-- What a search from `h` returns in a table with a vacant slot, given one step per slot:
an accepted entry, or a vacant slot such that no stored entry of hash `h` is accepted. -/
lemma Holds.probe_cases (h : Holds table cap hash P) (hrange : ∀ n, P n → first ≤ n ∧ n < count)
    (hload : count - first < cap) (accept : ℕ → Bool) (start : ℕ) :
    (∃ n, P n ∧ accept n = true ∧ probe table cap accept cap (start % cap) = .found n) ∨
      (∃ k < cap, table ((start + k) % cap) = 0 ∧ (∀ j < k, table ((start + j) % cap) ≠ 0) ∧
        probe table cap accept cap (start % cap) = .vacant ((start + k) % cap) ∧
        ∀ n, P n → hash n = start → accept n = false) := by
  have hcap : 0 < cap := by omega
  rcases probe_walk table cap accept start cap 0 with ⟨i, hi, hbefore, hend⟩ | ⟨hall, -⟩
  · simp only [Nat.zero_add, Nat.add_zero] at hbefore hend
    rcases hend with ⟨hz, hp⟩ | ⟨hz, ha, hp⟩
    · refine Or.inr ⟨i, hi, hz, fun j hj => (hbefore j hj).1, hp, ?_⟩
      intro n hPn hn
      obtain ⟨k, hk, hkn, hkb⟩ := h.placed n hPn
      rw [hn] at hkn hkb
      -- The entry lies before the vacant slot, so the walk passed and refused it.
      have hki : k < i := by
        by_contra hik
        rcases lt_or_ge i k with hlt | hge
        · exact hkb i hlt hz
        · obtain rfl : i = k := by omega
          exact h.pos n hPn (hkn.symm.trans hz)
      have := (hbefore k hki).2
      rwa [hkn] at this
    · exact Or.inl ⟨_, h.entry _ (mod_lt _ hcap) hz, ha, hp⟩
  · obtain ⟨s, hs, hzero⟩ := h.exists_vacant hrange hload
    obtain ⟨k, hk, hks⟩ := exists_offset start hs
    have := (hall k hk).1
    simp only [Nat.zero_add] at this
    rw [hks] at this
    exact absurd hzero this

/-- Storing a new entry in the vacant slot its own search ends at. -/
lemma Holds.insert (h : Holds table cap hash P) {new : ℕ} (hpos : new ≠ 0) (hnew : ¬P new)
    {k : ℕ} (hk : k < cap) (hvacant : table ((hash new + k) % cap) = 0)
    (hbefore : ∀ j < k, table ((hash new + j) % cap) ≠ 0) :
    Holds (update table ((hash new + k) % cap) new) cap hash (fun n => P n ∨ n = new) := by
  have hkeep : ∀ s, table s ≠ 0 → update table ((hash new + k) % cap) new s = table s := by
    intro s hs
    rw [update_of_ne]
    rintro rfl
    exact hs hvacant
  have hfresh : ∀ s < cap, table s ≠ new := fun s hs heq =>
    hnew (heq ▸ h.entry s hs (heq ▸ hpos))
  refine ⟨?_, ?_, ?_, ?_⟩
  · rintro n (hn | rfl)
    exacts [h.pos n hn, hpos]
  · rintro n (hn | rfl)
    · obtain ⟨i, hi, hin, hib⟩ := h.placed n hn
      refine ⟨i, hi, ?_, ?_⟩
      · rw [hkeep _ (by rw [hin]; exact h.pos n hn), hin]
      · intro j hj
        rw [hkeep _ (hib j hj)]
        exact hib j hj
    · refine ⟨k, hk, update_self _ _ _, ?_⟩
      intro j hj
      rw [hkeep _ (hbefore j hj)]
      exact hbefore j hj
  · intro s hs hne
    by_cases hslot : s = (hash new + k) % cap
    · subst hslot
      rw [update_self]
      exact Or.inr rfl
    · rw [update_of_ne hslot] at hne ⊢
      exact Or.inl (h.entry s hs hne)
  · intro s hs t ht hne heq
    by_cases h1 : s = (hash new + k) % cap <;> by_cases h2 : t = (hash new + k) % cap
    · rw [h1, h2]
    · rw [h1, update_self, update_of_ne h2] at heq
      exact absurd heq.symm (hfresh t ht)
    · rw [h2, update_self, update_of_ne h1] at heq
      exact absurd heq (hfresh s hs)
    · rw [update_of_ne h1] at hne heq
      rw [update_of_ne h2] at heq
      exact h.distinct s hs t ht hne heq

/-! ## Tables that index a range of entries -/

/-- The table's occupied slots hold exactly the entries `first ≤ n < count`, each once and
each reachable by probing from its own hash. -/
structure Indexed (table : ℕ → ℕ) (cap : ℕ) (hash : ℕ → ℕ) (first count : ℕ) : Prop where
  first_pos : 0 < first
  placed : ∀ n, first ≤ n → n < count → Placed table cap (hash n) n
  entry : ∀ s < cap, table s ≠ 0 → first ≤ table s ∧ table s < count
  distinct : ∀ s < cap, ∀ t < cap, table s ≠ 0 → table s = table t → s = t

lemma Indexed.holds (h : Indexed table cap hash first count) :
    Holds table cap hash fun n => first ≤ n ∧ n < count where
  pos n hn := by
    have := h.first_pos
    omega
  placed n hn := h.placed n hn.1 hn.2
  entry := h.entry
  distinct := h.distinct

lemma Holds.indexed (h : Holds table cap hash fun n => first ≤ n ∧ n < count) (hfirst : 0 < first) :
    Indexed table cap hash first count :=
  ⟨hfirst, fun n h1 h2 => h.placed n ⟨h1, h2⟩, h.entry, h.distinct⟩

lemma indexed_empty (cap : ℕ) (hash : ℕ → ℕ) {first : ℕ} (hfirst : 0 < first) :
    Indexed (fun _ => 0) cap hash first first where
  first_pos := hfirst
  placed := by omega
  entry := by simp
  distinct := by simp

/-- The hash of a stored entry is all that matters about the hash function. -/
lemma Indexed.congr_hash {hash' : ℕ → ℕ} (h : Indexed table cap hash first count)
    (heq : ∀ n, first ≤ n → n < count → hash' n = hash n) :
    Indexed table cap hash' first count where
  first_pos := h.first_pos
  placed := by
    intro n h1 h2
    rw [heq n h1 h2]
    exact h.placed n h1 h2
  entry := h.entry
  distinct := h.distinct

/-- What a search returns in a table that indexes a range. -/
lemma Indexed.probe_cases (h : Indexed table cap hash first count)
    (hload : count - first < cap) (accept : ℕ → Bool) (start : ℕ) :
    (∃ n, first ≤ n ∧ n < count ∧ accept n = true ∧
        probe table cap accept cap (start % cap) = .found n) ∨
      (∃ k < cap, table ((start + k) % cap) = 0 ∧ (∀ j < k, table ((start + j) % cap) ≠ 0) ∧
        probe table cap accept cap (start % cap) = .vacant ((start + k) % cap) ∧
        ∀ n, first ≤ n → n < count → hash n = start → accept n = false) := by
  rcases h.holds.probe_cases (fun _ => id) hload accept start with
    ⟨n, hn, hfound⟩ | ⟨k, hk, hvacant, hbefore, hprobe, hnone⟩
  · exact Or.inl ⟨n, hn.1, hn.2, hfound⟩
  · exact Or.inr ⟨k, hk, hvacant, hbefore, hprobe, fun n h1 h2 => hnone n ⟨h1, h2⟩⟩

/-! ## Insertion and rebuilding -/

/-- Storing the next entry in the vacant slot its own search ends at. -/
lemma Indexed.insert (h : Indexed table cap hash first count) (hfc : first ≤ count)
    {k : ℕ} (hk : k < cap) (hvacant : table ((hash count + k) % cap) = 0)
    (hbefore : ∀ j < k, table ((hash count + j) % cap) ≠ 0) :
    Indexed (update table ((hash count + k) % cap) count) cap hash first (count + 1) := by
  have hpos := h.first_pos
  refine ((h.holds.insert (by omega) (by omega) hk hvacant hbefore).congr fun n => ?_).indexed hpos
  omega

lemma Indexed.insertEntry (h : Indexed table cap hash first count) (hfc : first ≤ count)
    (hload : count - first < cap) :
    Indexed (insertEntry table cap (hash count) count) cap hash first (count + 1) := by
  rcases h.probe_cases hload (fun _ => false) (hash count) with
    ⟨n, -, -, hacc, -⟩ | ⟨k, hk, hvacant, hbefore, hp, -⟩
  · exact absurd hacc (by simp)
  · rw [LinearProbing.insertEntry, hp]
    exact h.insert hfc hk hvacant hbefore

/-- Rebuilding a table: every entry is indexed again, whatever the capacity, as long as the
entries fit. -/
lemma Indexed.reinsert (cap : ℕ) (hash : ℕ → ℕ) {first : ℕ} (hfirst : 0 < first) :
    ∀ {count : ℕ}, first ≤ count → count - first ≤ cap →
      Indexed (reinsert cap hash first count) cap hash first count := by
  intro count
  induction count with
  | zero => omega
  | succ n ih =>
    intro hfc hload
    rcases lt_or_ge n first with hlt | hge
    · -- Nothing below `first` is stored, so the table is still empty.
      obtain rfl : first = n + 1 := by omega
      have hempty : ∀ m ≤ n + 1, LinearProbing.reinsert cap hash (n + 1) m = fun _ => 0 := by
        intro m
        induction m with
        | zero => intro _; rfl
        | succ m ihm =>
          intro hm
          rw [LinearProbing.reinsert, if_neg (by omega)]
          exact ihm (by omega)
      rw [hempty _ le_rfl]
      exact indexed_empty cap hash hfirst
    · rw [LinearProbing.reinsert, if_pos hge]
      exact (ih hge (by omega)).insertEntry hge (by omega)

end Lapligence.LinearProbing
