import Lapligence.Container.Assoc

/-!
# Associative arrays are finite maps

`LlgAssoc.Represents` relates an array to the abstract map; every update preserves it
(`Represent.step`) and every query answers from it.  The main result `assoc_run` puts this
together over whole sequences of updates.
-/

namespace Lapligence.Container

open Value Function List Option

/-! ## The abstract arrays -/

/-- The integer that a key stands for in an array; none for a key with unknown bits. -/
def AssocType.indexOf (type : AssocType) (key : Sv4) : Option ℤ :=
  if sv4IsUnknown key then none else some (indexInt type.keyWidth type.keySigned key.toInt)

/-- Stored keys are known values, of the index type unless that is a wildcard. -/
def AssocType.IsKey (type : AssocType) (key : Sv4) : Prop :=
  sv4IsUnknown key = false ∧
    (type.keyWidth ≠ 0 → key.width = type.keyWidth ∧ key.signed = type.keySigned)

/-- A finite map from integers with, possibly, an explicit default. -/
structure AssocMap where
  map : ℤ → Option Sv4
  explicitDefault : Option Sv4

namespace AssocMap

/-- The array with no entries. -/
def empty : AssocMap :=
  ⟨fun _ => none, none⟩

/-- What an update means. -/
def step {ι : Type} [DecidableEq ι] (types : ι → AssocType) (maps : ι → AssocMap) :
    AssocUpdate ι → ι → AssocMap
  | .set i key value =>
    match (types i).indexOf key with
    | some n => update maps i { maps i with
        map := update (maps i).map n (some ((types i).llgElementAssign value)) }
    | none => maps
  | .delete i key =>
    match (types i).indexOf key with
    | some n => update maps i { maps i with map := update (maps i).map n none }
    | none => maps
  | .clear i => update maps i { maps i with map := fun _ => none }
  | .setDefault i value =>
    update maps i { maps i with explicitDefault := (types i).llgElementAssign value }
  | .resetDefault i => update maps i { maps i with explicitDefault := none }
  | .merge dst a b => update maps dst
      { map := mergeMap (types dst).llgElementMerge (maps a).map (maps b).map
        explicitDefault := do
          let x ← (maps a).explicitDefault
          let y ← (maps b).explicitDefault
          return (types dst).llgElementMerge (some (x, y)) }

/-- What a sequence of updates of empty arrays means. -/
def run {ι : Type} [DecidableEq ι] (types : ι → AssocType) (updates : List (AssocUpdate ι)) :
    ι → AssocMap :=
  updates.foldl (step types) fun _ => empty

end AssocMap

/-! ## The arrays represent maps -/

namespace LlgAssoc

/-- The array stands for the map, and its type is one that `llg_assoc_init_integral` makes. -/
structure Represents (array : LlgAssoc) (m : AssocMap) : Prop where
  entries : RepresentsMap Sv4.toInt array.entries m.map
  keys : ∀ e ∈ array.entries, array.IsKey e.1
  default_eq : array.defaultValue = m.explicitDefault.getD array.llgElementDefault
  hasDefault_eq : array.hasDefaultValue = m.explicitDefault.isSome
  init : array.llgAssocInitIntegral = .ok
    { array with defaultValue := array.llgElementDefault, hasDefaultValue := false, entries := [] }

variable {array : LlgAssoc} {m : AssocMap}

/-- What normalisation gives for a key. -/
lemma normalizeKey_cases (array : LlgAssoc) (key : Sv4) :
    array.llgAssocNormalizeKey key = none ∧ array.indexOf key = none ∨
      ∃ k, array.llgAssocNormalizeKey key = some k ∧ array.indexOf key = some k.toInt ∧
        array.IsKey k := by
  cases hknown : sv4IsUnknown key with
  | true =>
    left
    simp [llgAssocNormalizeKey, llgNormalizeIntegralKey, AssocType.indexOf, hknown]
  | false =>
    right
    obtain ⟨k, hk, hkk, hint⟩ :=
      normalizeKey_spec hknown array.keyWidth array.keySigned array.keyTwoState
    refine ⟨k, hk, ?_, hkk, fun hwidth => ?_⟩
    · simp [AssocType.indexOf, hknown, hint]
    · rw [llgNormalizeIntegralKey, if_neg (by simp [hknown]), if_pos hwidth] at hk
      obtain rfl := some.inj hk
      split_ifs <;> exact ⟨rfl, rfl⟩

open RepresentsMap (below notBelow)

/-- The binary search finds the place of the key's integer. -/
lemma position_eq (hsorted : array.entries.Pairwise fun a b => a.1.toInt < b.1.toInt) (key : Sv4) :
    array.llgAssocIntegralPosition key =
      ((below Sv4.toInt array.entries key.toInt).length,
        decide (∃ e ∈ array.entries, e.1.toInt = key.toInt)) := by
  have hlow : lowerBound (fun mid => array.compareAt mid key = some .lt) array.entries.length 0
      array.entries.length = (below Sv4.toInt array.entries key.toInt).length := by
    refine lowerBound_eq (by omega) (Nat.zero_le _) (takeWhile_sublist _).length_le fun i _ hi => ?_
    have hget : array.entries[i]? = some array.entries[i] := List.getElem?_eq_getElem hi
    rw [RepresentsMap.lt_length_below_iff hsorted hget]
    simp [compareAt, hget, integralCompare_eq, compare_lt_iff_lt]
  rw [llgAssocIntegralPosition, hlow]
  congr 1
  rw [decide_eq_decide]
  -- the entry at the place found
  have hget : array.entries[(below Sv4.toInt array.entries key.toInt).length]? =
      (notBelow Sv4.toInt array.entries key.toInt).head? := by
    have := getElem?_length_append (below Sv4.toInt array.entries key.toInt)
      (notBelow Sv4.toInt array.entries key.toInt)
    rwa [RepresentsMap.below_append_notBelow] at this
  rw [compareAt, hget]
  constructor
  · intro hcmp
    obtain ⟨e, he, hcmp⟩ := map_eq_some_iff.1 hcmp
    rw [integralCompare_eq, compare_eq_iff_eq] at hcmp
    exact ⟨e, (dropWhile_sublist _).subset (mem_of_head? he), hcmp⟩
  · rintro ⟨e, he, hk⟩
    obtain ⟨high, hhigh, -⟩ := RepresentsMap.notBelow_of_mem hsorted he hk
    rw [hhigh, List.head?_cons, map_some, integralCompare_eq, compare_eq_iff_eq.2 hk]

/-- The entry that a key addresses. -/
def entryOf (array : LlgAssoc) (key : Sv4) : Option ℕ :=
  (array.llgAssocNormalizeKey key).bind fun normalized =>
    let (position, found) := array.llgAssocIntegralPosition normalized
    if found then some position else none

/-- The answer of a traversal: the `extreme` element of a set of integers, as a key, or none for the
empty set. -/
def TraversalIs (type : AssocType) (S : Set ℤ) (extreme : Set ℤ → ℤ → Prop)
    (answer : Except String (Option Sv4)) : Prop :=
  if type.keyWidth = 0 then answer = .error "wildcard associative-array traversal is illegal"
  else S = ∅ ∧ answer = .ok none ∨
    ∃ key, answer = .ok (some key) ∧ type.IsKey key ∧ extreme S key.toInt

variable (h : array.Represents m)
include h

/-- What is found at the place of a key: its entry, or none and then larger keys. -/
lemma Represents.position_cases (key : Sv4) :
    (∃ low e high, array.entries = low ++ e :: high ∧ e.1.toInt = key.toInt ∧
      array.llgAssocIntegralPosition key = (low.length, true) ∧
      (∀ d ∈ low, d.1.toInt < key.toInt) ∧ (∀ d ∈ high, key.toInt < d.1.toInt) ∧
      m.map key.toInt = some e.2) ∨
    ∃ low high, array.entries = low ++ high ∧
      array.llgAssocIntegralPosition key = (low.length, false) ∧
      (∀ d ∈ low, d.1.toInt < key.toInt) ∧ (∀ d ∈ high, key.toInt < d.1.toInt) ∧
      m.map key.toInt = none := by
  have hsorted := h.entries.sorted
  have hsplit := RepresentsMap.below_append_notBelow Sv4.toInt array.entries key.toInt
  rw [position_eq hsorted]
  by_cases hfound : ∃ e ∈ array.entries, e.1.toInt = key.toInt
  · rw [decide_eq_true hfound]
    obtain ⟨e, he, hek⟩ := hfound
    obtain ⟨high, hhigh, hlt⟩ := RepresentsMap.notBelow_of_mem hsorted he hek
    rw [hhigh] at hsplit
    exact .inl ⟨_, e, high, hsplit.symm, hek, rfl, fun d hd => RepresentsMap.lt_of_mem_below hd, hlt,
      hek ▸ h.entries.get_mem he⟩
  · rw [decide_eq_false hfound]
    refine .inr ⟨_, _, hsplit.symm, rfl, fun d hd => RepresentsMap.lt_of_mem_below hd,
      fun d hd => RepresentsMap.lt_of_mem_notBelow hsorted hfound hd, ?_⟩
    exact h.entries.get_eq_none fun e he hek => hfound ⟨e, he, hek⟩

/-! ### Updates -/

/-- A new list of entries for an array. -/
lemma Represents.withEntries {entries : List (Sv4 × Sv4)}
    {map : ℤ → Option Sv4} (hmap : RepresentsMap Sv4.toInt entries map)
    (hkeys : ∀ e ∈ entries, array.IsKey e.1) : Represents { array with entries } { m with map } :=
  ⟨hmap, hkeys, h.default_eq, h.hasDefault_eq, h.init⟩

lemma Represents.set (key value : Sv4) :
    (array.llgAssocSetIntegral key value).1.Represents
      (match array.indexOf key with
      | some n => { m with map := update m.map n (some (array.llgElementAssign value)) }
      | none => m) := by
  obtain ⟨hnone, hidx⟩ | ⟨k, hsome, hidx, hkey⟩ := normalizeKey_cases array key
  · rw [llgAssocSetIntegral, hnone, hidx]
    exact h
  · rw [llgAssocSetIntegral, hsome, hidx]
    dsimp only
    obtain ⟨low, e, high, hentries, hek, hpos, -, -, -⟩ |
      ⟨low, high, hentries, hpos, hlow, hhigh, -⟩ := h.position_cases k
    · rw [hpos, if_pos rfl, hentries, modify_length_append]
      have hmap := h.entries
      have hkeys := h.keys
      rw [hentries] at hmap hkeys
      refine h.withEntries (hek ▸ hmap.replace _) fun d hd => ?_
      rcases mem_append.1 hd with hd | hd
      · exact hkeys d (mem_append_left _ hd)
      rcases mem_cons.1 hd with rfl | hd
      · exact hkeys e (by simp)
      · exact hkeys d (by simp [hd])
    · rw [hpos, if_neg Bool.false_ne_true, hentries, insertIdx_length_append]
      have hmap := h.entries
      have hkeys := h.keys
      rw [hentries] at hmap hkeys
      refine h.withEntries (hmap.insert hlow hhigh k rfl _) fun d hd => ?_
      rcases mem_append.1 hd with hd | hd
      · exact hkeys d (mem_append_left _ hd)
      rcases mem_cons.1 hd with rfl | hd
      · exact hkey
      · exact hkeys d (mem_append_right _ hd)

lemma Represents.delete (key : Sv4) :
    (array.llgAssocDeleteIntegral key).1.Represents
      (match array.indexOf key with
      | some n => { m with map := update m.map n none }
      | none => m) := by
  obtain ⟨hnone, hidx⟩ | ⟨k, hsome, hidx, -⟩ := normalizeKey_cases array key
  · rw [llgAssocDeleteIntegral, hnone, hidx]
    exact h
  · rw [llgAssocDeleteIntegral, hsome, hidx]
    dsimp only
    obtain ⟨low, e, high, hentries, hek, hpos, -⟩ | ⟨low, high, hentries, hpos, -, -, hmiss⟩ :=
      h.position_cases k
    · rw [hpos, if_pos rfl, hentries, eraseIdx_length_append]
      have hmap := h.entries
      have hkeys := h.keys
      rw [hentries] at hmap hkeys
      refine h.withEntries (hek ▸ hmap.erase) fun d hd => hkeys d ?_
      exact ((sublist_cons_self e high).append_left low).subset hd
    · rw [hpos, update_eq_self_iff.2 hmiss.symm]
      exact h

lemma Represents.clear : array.llgAssocDelete.Represents { m with map := fun _ => none } :=
  h.withEntries (.nil _) fun _ he => absurd he not_mem_nil

lemma Represents.setDefault (value : Sv4) :
    (array.llgAssocSetDefault value).Represents
      { m with explicitDefault := array.llgElementAssign value } :=
  ⟨h.entries, h.keys, rfl, rfl, h.init⟩

lemma Represents.resetDefault :
    array.llgAssocResetDefault.Represents { m with explicitDefault := none } :=
  ⟨h.entries, h.keys, rfl, rfl, h.init⟩

omit h

/-- Assignment to the element type keeps a value of that type. -/
lemma llgElementAssign_of_type {type : AssocType} {v : Sv4} (hwidth : v.width = type.elementWidth)
    (hsigned : v.signed = type.elementSigned)
    (hstate : type.elementTwoState = true → sv4IsUnknown v = false) :
    type.llgElementAssign v = v := by
  obtain ⟨width, signed, a, b⟩ := v
  dsimp only at hwidth hsigned
  subst hwidth hsigned
  have hcast : sv4Cast ⟨type.elementWidth, type.elementSigned, a, b⟩ type.elementWidth
      type.elementSigned = ⟨type.elementWidth, type.elementSigned, a, b⟩ := by
    simp [sv4Cast, g4Convert, g4Extend]
  rw [AssocType.llgElementAssign, hcast]
  split_ifs with htwo
  · exact sv4ToTwoState_of_known (hstate htwo)
  · rfl

/-- Merged values have the element type already. -/
lemma llgElementAssign_merge (type : AssocType) (o : Option (Sv4 × Sv4)) :
    type.llgElementAssign (type.llgElementMerge o) = type.llgElementMerge o := by
  have hdefault : type.llgElementAssign type.llgElementDefault = type.llgElementDefault := by
    refine llgElementAssign_of_type ?_ ?_ fun htwo => ?_
    · rw [AssocType.llgElementDefault]
      split_ifs <;> rfl
    · rw [AssocType.llgElementDefault]
      split_ifs <;> rfl
    · rw [AssocType.llgElementDefault, if_pos htwo]
      exact decide_eq_false (not_not.2 rfl)
  have hassign : ∀ v, type.llgElementAssign (type.llgElementAssign v) = type.llgElementAssign v := by
    intro v
    refine llgElementAssign_of_type ?_ ?_ fun htwo => ?_
    · rw [AssocType.llgElementAssign]
      split_ifs <;> rfl
    · rw [AssocType.llgElementAssign]
      split_ifs <;> rfl
    · rw [AssocType.llgElementAssign, if_pos htwo]
      exact decide_eq_false (not_not.2 rfl)
  match o with
  | none => exact hdefault
  | some (a, b) =>
    rw [AssocType.llgElementMerge]
    split_ifs
    · exact hassign a
    · exact hdefault

lemma IsKey_of_sameIndexType {a b : AssocType} (h : a.llgAssocSameIndexType b = true) {key : Sv4}
    (hkey : b.IsKey key) : a.IsKey key := by
  simp only [AssocType.llgAssocSameIndexType, Bool.and_eq_true, decide_eq_true_eq] at h
  obtain ⟨⟨hwidth, hsigned⟩, -⟩ := h
  rwa [AssocType.IsKey, hwidth, hsigned]

/-- The array that `llg_assoc_merge` copies has the entries of both arrays. -/
lemma Represents.merge {dst a b : LlgAssoc} {md ma mb : AssocMap} (h : dst.Represents md)
    (ha : a.Represents ma) (hb : b.Represents mb)
    (hda : dst.llgAssocSameIndexType a.toAssocType = true)
    (hdb : dst.llgAssocSameIndexType b.toAssocType = true) :
    ∃ r, llgAssocMerge dst a b = .ok r ∧ r.toAssocType = dst.toAssocType ∧ r.Represents
      { map := mergeMap dst.llgElementMerge ma.map mb.map
        explicitDefault := do
          let x ← ma.explicitDefault
          let y ← mb.explicitDefault
          return dst.llgElementMerge (some (x, y)) } := by
  have hentries := RepresentsMap.merge (f := dst.llgElementMerge) integralCompare_eq
    (Nat.le_refl _) ha.entries hb.entries
  generalize hmerged : mergeEntries llgIntegralCompare dst.llgElementMerge
    (a.entries.length + b.entries.length) a.entries b.entries = merged at hentries
  have hmap : merged.map (fun entry => (entry.1, dst.llgElementAssign entry.2)) = merged := by
    refine (map_congr_left fun e he => ?_).trans (map_id _)
    obtain ⟨⟨o, ho⟩, -⟩ := mem_mergeEntries (hmerged ▸ he)
    rw [← ho, llgElementAssign_merge, ho]
    rfl
  have hkeys : ∀ e ∈ merged, dst.IsKey e.1 := by
    intro e he
    obtain ⟨-, d, hd, hde⟩ := mem_mergeEntries (hmerged ▸ he)
    rw [← hde]
    exact hd.elim (fun hd => IsKey_of_sameIndexType hda (ha.keys d hd))
      fun hd => IsKey_of_sameIndexType hdb (hb.keys d hd)
  have hself : dst.llgAssocSameIndexType dst.toAssocType = true := by
    simp [AssocType.llgAssocSameIndexType]
  have hdefault : dst.llgElementAssign dst.llgElementDefault = dst.llgElementDefault :=
    llgElementAssign_merge dst.toAssocType none
  have hresult : llgAssocMerge dst a b = .ok { dst with
      entries := merged
      defaultValue := if a.hasDefaultValue && b.hasDefaultValue then
        dst.llgElementMerge (some (a.defaultValue, b.defaultValue)) else dst.llgElementDefault
      hasDefaultValue := a.hasDefaultValue && b.hasDefaultValue } := by
    simp only [llgAssocMerge, hda, hdb, hmerged, h.init, Bool.not_true, Bool.or_self, Bool.false_eq_true,
      if_false, bind, Except.bind]
    split_ifs with hboth
    · simpa [llgAssocCopy, hself, hmap, llgElementAssign_merge] using hboth
    · simp [llgAssocCopy, hself, hmap, hdefault, hboth]
  refine ⟨_, hresult, rfl, hentries, hkeys, ?_, ?_, h.init⟩
  · rw [ha.hasDefault_eq, hb.hasDefault_eq, ha.default_eq, hb.default_eq]
    cases ma.explicitDefault <;> cases mb.explicitDefault <;> rfl
  · rw [ha.hasDefault_eq, hb.hasDefault_eq]
    cases ma.explicitDefault <;> cases mb.explicitDefault <;> rfl

/-! ### Queries -/

include h

lemma Represents.get (key : Sv4) :
    (array.llgAssocGetIntegral key).1 =
      ((array.indexOf key).bind m.map).getD (m.explicitDefault.getD array.llgElementDefault) := by
  obtain ⟨hnone, hidx⟩ | ⟨k, hsome, hidx, -⟩ := normalizeKey_cases array key
  · rw [llgAssocGetIntegral, hnone, hidx]
    exact h.default_eq
  · rw [llgAssocGetIntegral, hsome, hidx, bind_some]
    obtain ⟨low, e, high, hentries, -, hpos, -, -, hmap⟩ | ⟨low, high, -, hpos, -, -, hmap⟩ :=
      h.position_cases k
    · simp [hpos, hentries, hmap]
    · simp [hpos, hmap, h.default_eq]

lemma Represents.existence (key : Sv4) :
    array.llgAssocExistsIntegral key = ((array.indexOf key).bind m.map).isSome := by
  obtain ⟨hnone, hidx⟩ | ⟨k, hsome, hidx, -⟩ := normalizeKey_cases array key
  · simp [llgAssocExistsIntegral, hnone, hidx]
  · rw [llgAssocExistsIntegral, hsome, hidx, bind_some]
    obtain ⟨low, e, high, -, -, hpos, -, -, hmap⟩ | ⟨low, high, -, hpos, -, -, hmap⟩ :=
      h.position_cases k
    all_goals simp [hpos, hmap]

lemma Represents.count : array.llgAssocCount = {n | m.map n ≠ none}.ncard :=
  h.entries.length_eq

lemma Represents.entryOf_cases {key : Sv4} {p : ℕ} (hp : array.entryOf key = some p) :
    ∃ e, array.entries[p]? = some e ∧ array.indexOf key = some e.1.toInt := by
  obtain ⟨hnone, -⟩ | ⟨k, hsome, hidx, -⟩ := normalizeKey_cases array key
  · simp [entryOf, hnone] at hp
  · rw [entryOf, hsome, bind_some] at hp
    obtain ⟨low, e, high, hentries, hek, hpos, -⟩ | ⟨low, high, -, hpos, -⟩ := h.position_cases k
    · obtain rfl : low.length = p := by simpa [hpos] using hp
      exact ⟨e, by simp [hentries], hek ▸ hidx⟩
    · simp [hpos] at hp

/-- Keys that address an entry address the same one if and only if they are the same integer. -/
lemma Represents.entryOf_eq_iff {key key' : Sv4} (hkey : array.entryOf key ≠ none) :
    array.entryOf key = array.entryOf key' ↔ array.indexOf key = array.indexOf key' := by
  constructor
  · intro heq
    obtain ⟨p, hp⟩ := ne_none_iff_exists'.1 hkey
    obtain ⟨e, he, hidx⟩ := h.entryOf_cases hp
    obtain ⟨e', he', hidx'⟩ := h.entryOf_cases (heq ▸ hp)
    obtain rfl : e = e' := some.inj (he.symm.trans he')
    exact hidx.trans hidx'.symm
  · intro heq
    obtain ⟨hnone, -⟩ | ⟨k, hsome, hidx, -⟩ := normalizeKey_cases array key
    · simp [entryOf, hnone] at hkey
    obtain ⟨-, hidx'⟩ | ⟨k', hsome', hidx', -⟩ := normalizeKey_cases array key'
    · rw [heq, hidx'] at hidx
      simp at hidx
    -- the search depends on the integer only
    have hint : k.toInt = k'.toInt := some.inj (hidx.symm.trans (heq.trans hidx'))
    rw [entryOf, entryOf, hsome, hsome', bind_some, bind_some,
      position_eq h.entries.sorted, position_eq h.entries.sorted, hint]

lemma Represents.map_eq_none (hempty : array.entries = []) (n : ℤ) : m.map n = none :=
  h.entries.get_eq_none fun e he => by simp [hempty] at he

lemma Represents.first :
    TraversalIs array.toAssocType {n | m.map n ≠ none} IsLeast array.llgAssocFirstIntegral := by
  rw [TraversalIs, llgAssocFirstIntegral, llgAssocEndpoint]
  split_ifs with hwidth hempty
  · rfl
  · exact .inl ⟨by simp [h.map_eq_none (length_eq_zero_iff.1 hempty)], rfl⟩
  · cases hentries : array.entries with
    | nil => simp [hentries] at hempty
    | cons e =>
      have hmap := h.entries
      rw [hentries] at hmap
      exact .inr ⟨e.1, rfl, h.keys e (by simp [hentries]), hmap.isLeast_head⟩

lemma Represents.last :
    TraversalIs array.toAssocType {n | m.map n ≠ none} IsGreatest array.llgAssocLastIntegral := by
  rw [TraversalIs, llgAssocLastIntegral, llgAssocEndpoint]
  split_ifs with hwidth hempty
  · rfl
  · exact .inl ⟨by simp [h.map_eq_none (length_eq_zero_iff.1 hempty)], rfl⟩
  · obtain hnil | ⟨rest, e, hentries⟩ := eq_nil_or_concat array.entries
    · simp [hnil] at hempty
    · rw [concat_eq_append] at hentries
      have hmap := h.entries
      rw [hentries] at hmap
      exact .inr ⟨e.1, by simp [hentries], h.keys e (by simp [hentries]), hmap.isGreatest_last⟩

/-- The entry behind those up to `k`. -/
lemma Represents.next_of_split (hwidth : array.keyWidth ≠ 0) {k : ℤ}
    {low high : List (Sv4 × Sv4)} (hentries : array.entries = low ++ high)
    (hlow : ∀ d ∈ low, d.1.toInt ≤ k) (hhigh : ∀ d ∈ high, k < d.1.toInt) :
    TraversalIs array.toAssocType {n | m.map n ≠ none ∧ k < n} IsLeast
      (if array.entries.length ≤ low.length then .ok none
        else .ok (array.entries[low.length]?.map Prod.fst)) := by
  have hmap := h.entries
  rw [hentries] at hmap
  rw [TraversalIs, if_neg hwidth, hentries]
  cases high with
  | nil =>
    refine .inl ⟨Set.eq_empty_iff_forall_notMem.2 ?_, by simp⟩
    rintro n ⟨hn, hlt⟩
    obtain ⟨d, hd, rfl⟩ := hmap.exists_mem_iff.2 hn
    exact absurd hlt (hlow d (by simpa using hd)).not_gt
  | cons d =>
    refine .inr ⟨d.1, by simp, h.keys d (by simp [hentries]), ?_⟩
    exact hmap.isLeast hlow (hhigh d mem_cons_self)

lemma Represents.next (key : Sv4) :
    TraversalIs array.toAssocType {n | m.map n ≠ none ∧ ∃ k ∈ array.indexOf key, k < n} IsLeast
      (array.llgAssocNextIntegral key) := by
  rw [llgAssocNextIntegral, llgAssocNeighbour]
  split_ifs with hwidth hempty
  · rw [TraversalIs, if_pos hwidth]
  · rw [TraversalIs, if_neg hwidth]
    exact .inl ⟨by simp [h.map_eq_none (length_eq_zero_iff.1 hempty)], rfl⟩
  obtain ⟨hnone, hidx⟩ | ⟨k, hsome, hidx, -⟩ := normalizeKey_cases array key
  · rw [TraversalIs, if_neg hwidth, hnone, hidx]
    exact .inl ⟨by simp, rfl⟩
  rw [hsome, hidx]
  simp only [mem_def, some.injEq, exists_eq_left']
  obtain ⟨low, e, high, hentries, hek, hpos, hlow, hhigh, -⟩ |
    ⟨low, high, hentries, hpos, hlow, hhigh, -⟩ := h.position_cases k
  · have hsplit : array.entries = (low ++ [e]) ++ high := by simp [hentries]
    have hnext := h.next_of_split hwidth hsplit (k := k.toInt) (fun d hd => ?_) hhigh
    · simpa [hpos] using hnext
    · rcases mem_append.1 hd with hd | hd
      · exact (hlow d hd).le
      · rw [mem_singleton.1 hd, hek]
  · simpa [hpos] using h.next_of_split hwidth hentries (fun d hd => (hlow d hd).le) hhigh

/-- The entry before those from `k` on. -/
lemma Represents.prev_of_split (hwidth : array.keyWidth ≠ 0) {k : ℤ}
    {low high : List (Sv4 × Sv4)} (hentries : array.entries = low ++ high)
    (hlow : ∀ d ∈ low, d.1.toInt < k) (hhigh : ∀ d ∈ high, k ≤ d.1.toInt) :
    TraversalIs array.toAssocType {n | m.map n ≠ none ∧ n < k} IsGreatest
      (if low.length = 0 then .ok none
        else .ok (array.entries[low.length - 1]?.map Prod.fst)) := by
  have hmap := h.entries
  rw [hentries] at hmap
  rw [TraversalIs, if_neg hwidth, hentries]
  obtain rfl | ⟨low, d, rfl⟩ := eq_nil_or_concat low
  · refine .inl ⟨Set.eq_empty_iff_forall_notMem.2 ?_, by simp⟩
    rintro n ⟨hn, hlt⟩
    obtain ⟨d, hd, rfl⟩ := hmap.exists_mem_iff.2 hn
    exact absurd hlt (hhigh d hd).not_gt
  · rw [concat_eq_append] at hentries hlow hmap ⊢
    refine .inr ⟨d.1, by simp, h.keys d (by simp [hentries]), ?_⟩
    rw [append_assoc, singleton_append] at hmap
    exact hmap.isGreatest (hlow d (by simp)) hhigh

lemma Represents.prev (key : Sv4) :
    TraversalIs array.toAssocType {n | m.map n ≠ none ∧ ∃ k ∈ array.indexOf key, n < k} IsGreatest
      (array.llgAssocPrevIntegral key) := by
  rw [llgAssocPrevIntegral, llgAssocNeighbour]
  split_ifs with hwidth hempty
  · rw [TraversalIs, if_pos hwidth]
  · rw [TraversalIs, if_neg hwidth]
    exact .inl ⟨by simp [h.map_eq_none (length_eq_zero_iff.1 hempty)], rfl⟩
  obtain ⟨hnone, hidx⟩ | ⟨k, hsome, hidx, -⟩ := normalizeKey_cases array key
  · rw [TraversalIs, if_neg hwidth, hnone, hidx]
    exact .inl ⟨by simp, rfl⟩
  rw [hsome, hidx]
  simp only [mem_def, some.injEq, exists_eq_left']
  obtain ⟨low, e, high, hentries, hek, hpos, hlow, hhigh, -⟩ |
    ⟨low, high, hentries, hpos, hlow, hhigh, -⟩ := h.position_cases k
  · have hprev := h.prev_of_split hwidth hentries hlow fun d hd => ?_
    · simpa [hpos] using hprev
    · rcases mem_cons.1 hd with rfl | hd
      · exact hek.ge
      · exact (hhigh d hd).le
  · simpa [hpos] using h.prev_of_split hwidth hentries hlow fun d hd => (hhigh d hd).le

end LlgAssoc

/-! ## Runs -/

/-- The arrays of a merge have the same index type. -/
def AssocUpdate.Compatible {ι : Type} (types : ι → AssocType) : AssocUpdate ι → Prop
  | .merge dst a b => (types dst).llgAssocSameIndexType (types a) = true ∧
      (types dst).llgAssocSameIndexType (types b) = true
  | _ => True

/-- The array is the map, and its queries answer from it. -/
structure LlgAssoc.Is (array : LlgAssoc) (m : AssocMap) : Prop where
  /-- The entries are strictly increasing. -/
  sorted : array.entries.Pairwise fun a b => a.1.toInt < b.1.toInt
  /-- They are those of the map. -/
  entries : ∀ n v, m.map n = some v ↔ ∃ e ∈ array.entries, e.1.toInt = n ∧ e.2 = v
  /-- Keys address the same entry if and only if they are the same integer of the index type. -/
  address : ∀ key key', array.entryOf key ≠ none →
    (array.entryOf key = array.entryOf key' ↔ array.indexOf key = array.indexOf key')
  get : ∀ key, (array.llgAssocGetIntegral key).1 =
    ((array.indexOf key).bind m.map).getD (m.explicitDefault.getD array.llgElementDefault)
  existence : ∀ key, array.llgAssocExistsIntegral key = ((array.indexOf key).bind m.map).isSome
  num : array.llgAssocCount = {n | m.map n ≠ none}.ncard
  first : TraversalIs array.toAssocType {n | m.map n ≠ none} IsLeast array.llgAssocFirstIntegral
  last : TraversalIs array.toAssocType {n | m.map n ≠ none} IsGreatest array.llgAssocLastIntegral
  next : ∀ key, TraversalIs array.toAssocType
    {n | m.map n ≠ none ∧ ∃ k ∈ array.indexOf key, k < n} IsLeast (array.llgAssocNextIntegral key)
  prev : ∀ key, TraversalIs array.toAssocType
    {n | m.map n ≠ none ∧ ∃ k ∈ array.indexOf key, n < k} IsGreatest
    (array.llgAssocPrevIntegral key)

lemma LlgAssoc.Represents.is {array : LlgAssoc} {m : AssocMap} (h : array.Represents m) :
    array.Is m :=
  { sorted := h.entries.sorted
    entries := h.entries.mem_iff
    address := fun _ _ hkey => h.entryOf_eq_iff hkey
    get := h.get
    existence := h.existence
    num := h.count
    first := h.first
    last := h.last
    next := h.next
    prev := h.prev }

section Run

variable {ι : Type} [DecidableEq ι] {types : ι → AssocType} {arrays : ι → LlgAssoc}
  {maps : ι → AssocMap}

/-- The arrays keep their types and stand for the maps. -/
def Represent (types : ι → AssocType) (arrays : ι → LlgAssoc) (maps : ι → AssocMap) : Prop :=
  ∀ i, (arrays i).toAssocType = types i ∧ (arrays i).Represents (maps i)

lemma Represent.update (h : Represent types arrays maps) {i : ι} {array : LlgAssoc} {m : AssocMap}
    (htype : array.toAssocType = types i) (harray : array.Represents m) :
    Represent types (update arrays i array) (update maps i m) := by
  intro j
  by_cases hj : j = i
  · subst hj
    rw [update_self, update_self]
    exact ⟨htype, harray⟩
  · rw [update_of_ne hj, update_of_ne hj]
    exact h j

/-- Every update that does not end the program does what it means. -/
lemma Represent.step (h : Represent types arrays maps) {u : AssocUpdate ι} (hu : u.Compatible types) :
    ∃ arrays', assocStep arrays u = .ok arrays' ∧
      Represent types arrays' (AssocMap.step types maps u) := by
  cases u with
  | set i key value =>
    refine ⟨_, rfl, ?_⟩
    have hset := (h i).2.set key value
    have htype : ((arrays i).llgAssocSetIntegral key value).1.toAssocType = types i := by
      rw [← (h i).1, LlgAssoc.llgAssocSetIntegral]
      split <;> rfl
    rw [(h i).1] at hset
    rw [AssocMap.step]
    cases hidx : (types i).indexOf key with
    | none =>
      rw [hidx] at hset
      simpa using h.update htype hset
    | some =>
      rw [hidx] at hset
      exact h.update htype hset
  | delete i key =>
    refine ⟨_, rfl, ?_⟩
    have hdelete := (h i).2.delete key
    have htype : ((arrays i).llgAssocDeleteIntegral key).1.toAssocType = types i := by
      rw [← (h i).1, LlgAssoc.llgAssocDeleteIntegral]
      split
      · rfl
      · dsimp only
        split_ifs <;> rfl
    rw [(h i).1] at hdelete
    rw [AssocMap.step]
    cases hidx : (types i).indexOf key with
    | none =>
      rw [hidx] at hdelete
      simpa using h.update htype hdelete
    | some =>
      rw [hidx] at hdelete
      exact h.update htype hdelete
  | clear i => exact ⟨_, rfl, h.update (h i).1 (h i).2.clear⟩
  | setDefault i value =>
    have hset := (h i).2.setDefault value
    rw [(h i).1] at hset
    exact ⟨_, rfl, h.update (h i).1 hset⟩
  | resetDefault i => exact ⟨_, rfl, h.update (h i).1 (h i).2.resetDefault⟩
  | merge dst a b =>
    obtain ⟨hda, hdb⟩ := hu
    rw [← (h dst).1, ← (h a).1] at hda
    rw [← (h dst).1, ← (h b).1] at hdb
    obtain ⟨r, hr, htype, hmerge⟩ := (h dst).2.merge (h a).2 (h b).2 hda hdb
    rw [(h dst).1] at hmerge htype
    exact ⟨_, by rw [assocStep, hr]; rfl, h.update htype hmerge⟩

lemma Represent.step_error (h : Represent types arrays maps) {u : AssocUpdate ι}
    (hu : ¬u.Compatible types) :
    assocStep arrays u = .error "incompatible associative-array index types" := by
  cases u with
  | merge dst a b =>
    have hne : (!(arrays dst).llgAssocSameIndexType (arrays a).toAssocType ||
        !(arrays dst).llgAssocSameIndexType (arrays b).toAssocType) = true := by
      rw [(h dst).1, (h a).1, (h b).1]
      simpa [AssocUpdate.Compatible, imp_iff_not_or] using hu
    rw [assocStep, LlgAssoc.llgAssocMerge, if_pos hne]
    rfl
  | _ => exact absurd trivial hu

/-- What one step does, over a sequence of updates. -/
lemma Represent.run (h : Represent types arrays maps) (updates : List (AssocUpdate ι)) :
    ((∀ u ∈ updates, u.Compatible types) → ∃ arrays', assocRun arrays updates = .ok arrays' ∧
      Represent types arrays' (updates.foldl (AssocMap.step types) maps)) ∧
    ((∃ u ∈ updates, ¬u.Compatible types) →
      assocRun arrays updates = .error "incompatible associative-array index types") := by
  induction updates generalizing arrays maps with
  | nil => exact ⟨fun _ => ⟨arrays, rfl, h⟩, fun hu => by simp at hu⟩
  | cons u updates ih =>
    by_cases hu : u.Compatible types
    · obtain ⟨arrays', hstep, h'⟩ := h.step hu
      have hrun : assocRun arrays (u :: updates) = assocRun arrays' updates := by
        rw [assocRun, foldlM_cons, hstep]
        rfl
      rw [hrun]
      refine ⟨fun hall => (ih h').1 fun v hv => hall v (mem_cons_of_mem u hv), ?_⟩
      rintro ⟨v, hv, hbad⟩
      refine (ih h').2 ⟨v, (mem_cons.1 hv).resolve_left ?_, hbad⟩
      rintro rfl
      exact hbad hu
    · refine ⟨fun hall => absurd (hall u mem_cons_self) hu, fun _ => ?_⟩
      rw [assocRun, foldlM_cons, h.step_error hu]
      rfl

/-- A new array is the empty map. -/
lemma represents_init {type : AssocType} {array : LlgAssoc}
    (h : type.llgAssocInitIntegral = .ok array) : array.Represents .empty := by
  rw [AssocType.llgAssocInitIntegral] at h
  split_ifs at h with hwidth hkey
  obtain rfl := Except.ok.inj h
  refine ⟨.nil _, fun e he => absurd he not_mem_nil, rfl, rfl, ?_⟩
  rw [AssocType.llgAssocInitIntegral, if_neg hwidth, if_neg hkey]
  simp [AssocType.llgElementDefault]

/-- Arrays made by `llg_assoc_init_integral` and updated in any way are the maps that the updates
mean, and all their queries answer from these.  Only a merge of arrays of different index types
ends the program. -/
theorem assoc_run (types : ι → AssocType) (start : ι → LlgAssoc)
    (hstart : ∀ i, (types i).llgAssocInitIntegral = .ok (start i)) (updates : List (AssocUpdate ι)) :
    ((∀ u ∈ updates, u.Compatible fun i => (start i).toAssocType) →
      ∃ arrays, assocRun start updates = .ok arrays ∧
        ∀ i, (arrays i).toAssocType = (start i).toAssocType ∧
          (arrays i).Is (AssocMap.run (fun i => (start i).toAssocType) updates i)) ∧
    ((∃ u ∈ updates, ¬u.Compatible fun i => (start i).toAssocType) →
      assocRun start updates = .error "incompatible associative-array index types") := by
  have h : Represent (fun i => (start i).toAssocType) start fun _ => .empty :=
    fun i => ⟨rfl, represents_init (hstart i)⟩
  refine ⟨fun hall => ?_, (h.run updates).2⟩
  obtain ⟨arrays, hrun, h'⟩ := (h.run updates).1 hall
  exact ⟨arrays, hrun, fun i => ⟨(h' i).1, (h' i).2.is⟩⟩

/-- A wildcard array, new. -/
def wildcardArray : LlgAssoc where
  elementWidth := 8
  elementSigned := false
  elementTwoState := true
  keyWidth := 0
  keySigned := false
  keyTwoState := false
  defaultValue := sv4Zero 8 false
  hasDefaultValue := false
  entries := []

/-- The key -1 in 8 bits and in 100 bits, both signed: the second write goes to the entry of the
first. -/
theorem assoc_run_wildcard :
    ∃ arrays : Unit → LlgAssoc,
      assocRun (fun _ => wildcardArray)
        [.set () ⟨8, true, -1, 0⟩ (sv4Zero 8 false),
          .set () ⟨100, true, -1, 0⟩ ⟨8, false, 7, 0⟩] = .ok arrays ∧
      (arrays ()).llgAssocGetIntegral ⟨3, true, -1, 0⟩ = (⟨8, false, 7, 0⟩, none) ∧
      (arrays ()).llgAssocCount = 1 ∧
      (arrays ()).Is (AssocMap.run (fun _ => wildcardArray.toAssocType)
        [.set () ⟨8, true, -1, 0⟩ (sv4Zero 8 false),
          .set () ⟨100, true, -1, 0⟩ ⟨8, false, 7, 0⟩] ()) := by
  obtain ⟨arrays, hrun, his⟩ := (assoc_run (fun _ : Unit => wildcardArray.toAssocType)
    (fun _ => wildcardArray) (fun _ => by decide +kernel)
    [.set () ⟨8, true, -1, 0⟩ (sv4Zero 8 false),
      .set () ⟨100, true, -1, 0⟩ ⟨8, false, 7, 0⟩]).1 (by simp [AssocUpdate.Compatible])
  refine ⟨arrays, hrun, ?_, ?_, (his ()).2⟩
  · obtain rfl := Except.ok.inj hrun
    decide +kernel
  · obtain rfl := Except.ok.inj hrun
    decide +kernel

end Run

end Lapligence.Container
