import Lapligence.Value.Powers

/-!
# Nets

The resolution of the drivers of a net, a word at a time and with or without strengths, the navigation of
enumerations and the evaluation of the tables of user-defined primitives (`value_gmp/net_adapters.c`).
-/

namespace Lapligence.Value

open WordLists Constraints List

/-! ## Resolution -/

/-- The kinds of nets. -/
inductive ResolveMode where
  | wire | wand | wor | tri0 | tri1 | supply0 | supply1
deriving DecidableEq

/-- `LLG_GMP_STRENGTH_PULL`. -/
def strengthPull : ℕ := 5

/-- `LLG_GMP_STRENGTH_SUPPLY`. -/
def strengthSupply : ℕ := 7

/-- `extract`: the bits of a plane from a position on. -/
def extract (plane : Words) (width offset : ℕ) : BitVec 64 :=
  if offset ≥ width then 0
  else
    let word := offset / 64
    let shift := offset % 64
    let result := plane.getD word 0 >>> shift
    let result :=
      if shift ≠ 0 ∧ word + 1 < g4Words width then result ||| plane.getD (word + 1) 0 <<< (64 - shift)
      else result
    result &&& g4Mask (width - offset)

/-- `store_word`. -/
def storeWord (out : G4) (i : ℕ) (a b : BitVec 64) : G4 :=
  let out := if b ≠ 0 ∧ out.width > 64 then llgGmpSv4Promote out else out
  { out with a := out.a.set i a, b := out.b.map (·.set i b) }

/-- What a driver contributes to a word: the known zeros, the known ones and the X bits. -/
structure DriverWord where
  zeros : BitVec 64
  ones : BitVec 64
  x : BitVec 64

def driverWord (v : G4) (source : ℕ) (mask : BitVec 64) : DriverWord :=
  let valid := if source ≥ v.width then 0 else g4Mask (v.width - source)
  let aa := extract v.a v.width source
  let bb := extract v.wordsB v.width source
  ⟨~~~aa &&& ~~~bb &&& valid &&& mask, aa &&& ~~~bb &&& mask, aa &&& bb &&& mask⟩

/-- The two planes of a word of a net without strengths, from the union of what its drivers contribute. -/
def plainWord (mode : ResolveMode) (any : DriverWord) (mask : BitVec 64) : BitVec 64 × BitVec 64 :=
  let absent := ~~~(any.zeros ||| any.ones ||| any.x) &&& mask
  let (ones, unknown) :=
    match mode with
    | .wand => (any.ones &&& ~~~any.x &&& ~~~any.zeros, any.x &&& ~~~any.zeros)
    | .wor => (any.ones, any.x &&& ~~~any.ones)
    | _ =>
      let unknown := any.x ||| (any.zeros &&& any.ones)
      (any.ones &&& ~~~unknown, unknown)
  let ones := if mode = .tri1 then ones ||| absent else ones
  let absent := if mode = .tri0 ∨ mode = .tri1 then 0 else absent
  ((ones ||| unknown) &&& mask, (unknown ||| absent) &&& mask)

/-- The bits that may have a value at each strength. -/
structure Levels where
  known0 : ℕ → BitVec 64
  known1 : ℕ → BitVec 64
  possible0 : ℕ → BitVec 64
  possible1 : ℕ → BitVec 64

/-- `table[level] |= bits`. -/
def orAt (table : ℕ → BitVec 64) (level : ℕ) (bits : BitVec 64) : ℕ → BitVec 64 :=
  Function.update table level (table level ||| bits)

/-- The levels of a net without drivers. -/
def firstLevels (mode : ResolveMode) (mask : BitVec 64) : Levels :=
  let none : ℕ → BitVec 64 := fun _ => 0
  match mode with
  | .tri0 => ⟨orAt none strengthPull mask, none, orAt none strengthPull mask, none⟩
  | .supply0 => ⟨orAt none strengthSupply mask, none, orAt none strengthSupply mask, none⟩
  | .tri1 => ⟨none, orAt none strengthPull mask, none, orAt none strengthPull mask⟩
  | .supply1 => ⟨none, orAt none strengthSupply mask, none, orAt none strengthSupply mask⟩
  | _ => ⟨none, none, none, none⟩

/-- A driver with its strengths is added. -/
def Levels.add (levels : Levels) (d : DriverWord) (s0 s1 : ℕ) : Levels :=
  let levels :=
    if s0 ≠ 0 then
      { levels with
        known0 := orAt levels.known0 s0 d.zeros
        possible0 := orAt levels.possible0 s0 (d.zeros ||| d.x) }
    else levels
  if s1 ≠ 0 then
    { levels with
      known1 := orAt levels.known1 s1 d.ones
      possible1 := orAt levels.possible1 s1 (d.ones ||| d.x) }
  else levels

/-- The loop over the strengths, from the greatest on: the zeros, the ones and the bits that are driven. -/
def strongest (mode : ResolveMode) (levels : Levels) :
    ℕ → BitVec 64 → BitVec 64 → BitVec 64 → BitVec 64 → BitVec 64 × BitVec 64 × BitVec 64
  | 0, zeros, ones, stronger0, stronger1 => (zeros, ones, stronger0 ||| stronger1)
  | s + 1, zeros, ones, stronger0, stronger1 =>
    let tie0 := if mode = .wand then BitVec.allOnes 64 else ~~~levels.possible1 (s + 1)
    let tie1 := if mode = .wor then BitVec.allOnes 64 else ~~~levels.possible0 (s + 1)
    strongest mode levels s (zeros ||| (levels.known0 (s + 1) &&& ~~~stronger1 &&& tie0))
      (ones ||| (levels.known1 (s + 1) &&& ~~~stronger0 &&& tie1)) (stronger0 ||| levels.possible0 (s + 1))
      (stronger1 ||| levels.possible1 (s + 1))

/-- The two planes of a word of a net with strengths. -/
def strengthWord (mode : ResolveMode) (levels : Levels) (mask : BitVec 64) : BitVec 64 × BitVec 64 :=
  let (zeros, ones, driven) := strongest mode levels strengthSupply 0 0 0 0
  let absent := ~~~driven &&& mask
  let unknown := ~~~(zeros ||| ones ||| absent) &&& mask
  ((ones ||| unknown) &&& mask, (unknown ||| absent) &&& mask)

/-- The drivers that are selected; a negative index aborts the program.  The supplies without strengths do not
look at the drivers. -/
def selectDrivers (strengths : Option (List ℕ × List ℕ)) (mode : ResolveMode) (selected : List ℤ) :
    Option (List ℕ) :=
  if strengths.isNone ∧ (mode = .supply0 ∨ mode = .supply1) then some []
  else selected.mapM fun d => if d < 0 then none else some d.toNat

/-- The planes of one word of a net. -/
def resolveWord (drivers : List (Option G4)) (strengths : Option (List ℕ × List ℕ)) (selected : List ℕ)
    (source : ℕ) (mode : ResolveMode) (mask : BitVec 64) : Option (BitVec 64 × BitVec 64) :=
  match strengths with
  | none =>
    if mode = .supply0 then some (0, 0)
    else if mode = .supply1 then some (mask, 0)
    else
      let any := selected.foldl (fun any d =>
        match drivers.getD d none with
        | none => any
        | some v =>
          let word := driverWord v source mask
          ⟨any.zeros ||| word.zeros, any.ones ||| word.ones, any.x ||| word.x⟩) ⟨0, 0, 0⟩
      some (plainWord mode any mask)
  | some (strength0, strength1) => do
    let levels ← selected.foldlM (fun levels d =>
      match drivers.getD d none with
      | none => some levels
      | some v =>
        let s0 := strength0.getD d 0
        let s1 := strength1.getD d 0
        if s0 > strengthSupply ∨ s1 > strengthSupply then none
        else some (levels.add (driverWord v source mask) s0 s1)) (firstLevels mode mask)
    return strengthWord mode levels mask

/-- `resolve`; a driver that is not connected is `none`. -/
def resolve (drivers : List (Option G4)) (strengths : Option (List ℕ × List ℕ)) (selected : List ℤ)
    (offset width : ℕ) (sign : Bool) (mode : ResolveMode) : Option G4 := do
  let n := g4Words width
  let out ← (range n).foldlM (fun out i => do
    let selected ← selectDrivers strengths mode selected
    let (a, b) ← resolveWord drivers strengths selected (offset + i * 64) mode (wordMask width n i)
    return storeWord out i a b) (llgGmpSv4New width sign false)
  return llgGmpSv4Finish out

/-- `llg_gmp_sv4_resolve`. -/
def llgGmpSv4Resolve (drivers : List (Option G4)) (width : ℕ) (sign : Bool) (mode : ResolveMode) : Option G4 :=
  resolve drivers none ((range drivers.length).map (↑)) 0 width sign mode

/-- `llg_gmp_sv4_resolve_strengths`. -/
def llgGmpSv4ResolveStrengths (drivers : List (Option G4)) (strength0 strength1 : List ℕ) (width : ℕ)
    (sign : Bool) (mode : ResolveMode) : Option G4 :=
  resolve drivers (some (strength0, strength1)) ((range drivers.length).map (↑)) 0 width sign mode

/-- `llg_gmp_sv4_resolve_strengths_range`. -/
def llgGmpSv4ResolveStrengthsRange (drivers : List (Option G4)) (strength0 strength1 : List ℕ)
    (indices : List ℤ) (sourceWidth offset width : ℕ) (sign : Bool) (mode : ResolveMode) : Option G4 :=
  if sourceWidth ≥ llgGmpSupportedWidthLimit ∨ width ≥ llgGmpSupportedWidthLimit ∨ offset > sourceWidth ∨
      width > sourceWidth - offset then
    none
  else resolve drivers (some (strength0, strength1)) indices offset width sign mode

lemma storeWord_shaped {v : G4} {w : ℕ} (h : v.Shaped w) (hw : 0 < w) (i : ℕ) (a b : BitVec 64) :
    (storeWord v i a b).Shaped w :=
  (G4.Shaped.ite h.promote h).setWord hw ..

lemma llgGmpSv4New_zero_shaped (w : ℕ) (s : Bool) : (llgGmpSv4New w s false).Shaped w := by
  rcases Nat.lt_or_ge 64 w with hw | hw
  · exact llgGmpSv4New_shaped hw s false
  · have hcanonical : G4.Canonical ⟨w, s, [0], some [0]⟩ :=
      canonical_of_below hw s (below_zero w) (below_zero w)
    rw [llgGmpSv4New, if_neg (by omega)]
    exact hcanonical.shaped

/-- A fold that may fail keeps a shape if every step does. -/
lemma foldlM_shaped {α : Type} {w : ℕ} {step : G4 → α → Option G4} {l : List α}
    (hstep : ∀ v, v.Shaped w → ∀ x ∈ l, ∀ out ∈ step v x, out.Shaped w) {v : G4} (h : v.Shaped w) :
    ∀ out ∈ l.foldlM step v, out.Shaped w := by
  induction l generalizing v with
  | nil =>
    rintro _ ⟨⟩
    exact h
  | cons x l ih =>
    intro out hout
    rw [foldlM_cons] at hout
    obtain ⟨u, hu, hout⟩ := Option.bind_eq_some_iff.1 hout
    exact ih (fun v hv y hy => hstep v hv y (mem_cons_of_mem x hy))
      (hstep v h x mem_cons_self u hu) out hout

lemma resolve_canonical (drivers : List (Option G4)) (strengths : Option (List ℕ × List ℕ))
    (selected : List ℤ) (offset w : ℕ) (s : Bool) (mode : ResolveMode) :
    ∀ out ∈ resolve drivers strengths selected offset w s mode, out.Canonical := by
  intro out hout
  obtain ⟨v, hv, hout⟩ := Option.bind_eq_some_iff.1 hout
  cases hout
  refine (foldlM_shaped (fun u hu i hi out hout => ?_) (llgGmpSv4New_zero_shaped w s) v hv).finish
  have hw : 0 < w := by
    have := mem_range.1 hi
    rw [g4Words] at this
    omega
  obtain ⟨chosen, -, hout⟩ := Option.bind_eq_some_iff.1 hout
  obtain ⟨⟨a, b⟩, -, hout⟩ := Option.bind_eq_some_iff.1 hout
  cases hout
  exact storeWord_shaped hu hw i a b

lemma llgGmpSv4ResolveStrengthsRange_canonical (drivers : List (Option G4)) (strength0 strength1 : List ℕ)
    (indices : List ℤ) (sourceWidth offset w : ℕ) (s : Bool) (mode : ResolveMode) :
    ∀ out ∈ llgGmpSv4ResolveStrengthsRange drivers strength0 strength1 indices sourceWidth offset w s mode,
      out.Canonical := by
  rw [llgGmpSv4ResolveStrengthsRange]
  split_ifs
  · rintro _ ⟨⟩
  · exact resolve_canonical _ _ _ _ _ _ _

/-! ## Enumerations and tables -/

/-- `llg_gmp_sv4_to_u64`. -/
def llgGmpSv4ToU64 (v : G4) : BitVec 64 :=
  if v.width = 0 then 0 else v.a.getD 0 0 &&& ~~~v.wordsB.getD 0 0

/-- `llg_gmp_sv4_enum_navigate`; the last member with the current value counts. -/
def llgGmpSv4EnumNavigate (current step : G4) (values : List G4) (defaultValue : G4) (direction : ℤ) : G4 :=
  let count := values.length
  let found := (range count).foldl (fun found i =>
    if g4Truth (g4Compare current (values.getD i defaultValue) .caseEq) = 1 then i else found) count
  if count = 0 ∨ found = count then defaultValue
  else
    let distance := if llgGmpSv4IsUnknown step then 0 else (llgGmpSv4ToU64 step).toNat
    let offset := distance % count
    let target := (if direction < 0 then found + count - offset else found + offset) % count
    values.getD target defaultValue

/-- Whether the inputs match a row of a table. -/
def matchesRow (row : List ℕ) (inputs : List G4) : Bool :=
  (range inputs.length).all fun i =>
    let state := llgGmpSv4State (inputs.getD i (llgGmpSv4X 1 false)) 0
    (row.getD i 0).testBit (if state = 3 then 2 else state)

/-- `llg_gmp_sv4_udp_eval`; a row has a field for each input and one for the result. -/
def llgGmpSv4UdpEval (rows : List (List ℕ)) (inputs : List G4) : Option G4 :=
  match rows.find? (matchesRow · inputs) with
  | none => some (llgGmpSv4X 1 false)
  | some row =>
    let state := row.getD inputs.length 0
    if state > 3 then none else some (llgGmpSv4Fill state 1 false)

lemma getD_canonical {values : List G4} (hvalues : ∀ v ∈ values, v.Canonical) {d : G4} (hd : d.Canonical)
    (i : ℕ) : (values.getD i d).Canonical := by
  rw [getD_eq_getElem?_getD]
  cases hv : values[i]? with
  | none => exact hd
  | some v => exact hvalues v (mem_of_getElem? hv)

lemma llgGmpSv4EnumNavigate_canonical (current step : G4) {values : List G4}
    (hvalues : ∀ v ∈ values, v.Canonical) {d : G4} (hd : d.Canonical) (direction : ℤ) :
    (llgGmpSv4EnumNavigate current step values d direction).Canonical := by
  simp only [llgGmpSv4EnumNavigate]
  generalize (range values.length).foldl _ values.length = found
  by_cases hnone : values.length = 0 ∨ found = values.length
  · rw [if_pos hnone]
    exact hd
  · rw [if_neg hnone]
    exact getD_canonical hvalues hd _

lemma llgGmpSv4UdpEval_canonical (rows : List (List ℕ)) (inputs : List G4) :
    ∀ out ∈ llgGmpSv4UdpEval rows inputs, out.Canonical := by
  intro out hout
  rw [llgGmpSv4UdpEval] at hout
  cases hrow : rows.find? (matchesRow · inputs) with
  | none =>
    rw [hrow] at hout
    cases hout
    exact llgGmpSv4X_canonical ..
  | some =>
    rw [hrow] at hout
    simp only at hout
    split_ifs at hout <;> cases hout
    exact (llgGmpSv4Fill_spec _ 1 false).1

end Lapligence.Value
