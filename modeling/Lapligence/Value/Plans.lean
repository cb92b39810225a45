import Lapligence.Value.Storage

/-!
# Selection plans

The plans of `value_gmp/selections.c`: a selection of a selection of … of a stored value is kept as one
interval of its bits.  `select_plan_bit`, `select_plan_part` and `select_plan_indexed` make a plan,
`select_plan_step` selects within what a plan selects, and a value is read and assigned through the last one.

A chain of selections addresses bits of the storage: `stepAddress` says how one more selection changes the
addresses, and a plan stands for them (`SelectPlan.Represents`).  `plans_compose` says that reading through
the plan is performing the selections one after another, and what an assignment through it changes.
-/

namespace Lapligence.Value

open WordLists Constraints Elab Selection Option

/-! ## The functions -/

/-- A plan that passes `g4_selection_plan_check`. -/
def checked (plan : SelectPlan) : Option SelectPlan :=
  if g4SelectionPlanCheck plan then some plan else none

/-- `llg_gmp_sv4_select_plan_init`. -/
def llgGmpSv4SelectPlanInit (storageWidth : ℕ) : Option SelectPlan :=
  checked ⟨storageWidth, storageWidth, 0, 0, storageWidth⟩

/-- `llg_gmp_sv4_select_plan_window`. -/
def llgGmpSv4SelectPlanWindow (storageWidth width : ℕ) (low : ℤ) : Option SelectPlan := do
  let plan ← llgGmpSv4SelectPlanInit storageWidth
  let width ← g4SelectionWidth width
  let plan := { plan with width := width }
  if low ≥ storageWidth ∨ low ≤ -width then
    checked { plan with storageLsb := 0, valueLsb := 0, count := 0 }
  else
    let start := if low > 0 then low else 0
    let last := low + width
    let last := if last > storageWidth then (storageWidth : ℤ) else last
    checked { plan with
      storageLsb := start.toNat
      valueLsb := (start - low).toNat
      count := (last - start).toNat }

/-- `llg_gmp_sv4_select_plan_bit`. -/
def llgGmpSv4SelectPlanBit (storageWidth index : ℕ) : Option SelectPlan :=
  if index ≥ storageWidth then llgGmpSv4SelectPlanWindow storageWidth 1 (-1)
  else llgGmpSv4SelectPlanWindow storageWidth 1 index

/-- `llg_gmp_sv4_select_plan_part`. -/
def llgGmpSv4SelectPlanPart (storageWidth : ℕ) (left right : ℤ) : Option SelectPlan := do
  let width ← g4SelectionPartWidth left right
  llgGmpSv4SelectPlanWindow storageWidth width (if left < right then left else right)

/-- `llg_gmp_sv4_select_plan_indexed`. -/
def llgGmpSv4SelectPlanIndexed (storageWidth : ℕ) (base : G4) (width : ℕ) (negative : Bool) :
    Option SelectPlan := do
  if width = 0 then none
  let width ← g4SelectionWidth width
  match g4SelectionIndex base with
  | none => llgGmpSv4SelectPlanWindow storageWidth width (-width)
  | some index =>
    if negative then
      if index < 0 then llgGmpSv4SelectPlanWindow storageWidth width (-width)
      else llgGmpSv4SelectPlanWindow storageWidth width (index - ((width : ℤ) - 1))
    else llgGmpSv4SelectPlanWindow storageWidth width index

/-- The plan of a selection with no bit of the storage. -/
def SelectPlan.empty (plan : SelectPlan) (width : ℕ) : SelectPlan :=
  { plan with width := width, storageLsb := 0, valueLsb := 0, count := 0 }

/-- `llg_gmp_sv4_select_plan_step`. -/
def llgGmpSv4SelectPlanStep (plan : SelectPlan) (base : G4) (width : ℕ) : Option SelectPlan := do
  let plan ← checked plan
  let width ← g4SelectionWidth width
  if width = 0 then none
  match g4SelectionIndex base with
  | none => return plan.empty width
  | some low =>
    if plan.count = 0 ∨ low ≥ plan.width ∨ low ≤ -width then return plan.empty width
    let high := low + width
    let validLow : ℤ := plan.valueLsb
    let validHigh := validLow + plan.count
    let start := if low > validLow then low else validLow
    let last := if high < validHigh then high else validHigh
    if last ≤ start then checked (plan.empty width)
    else checked { plan with
      storageLsb := plan.storageLsb + (start - validLow).toNat
      valueLsb := (start - low).toNat
      count := (last - start).toNat
      width := width }

/-- The selection that a plan starts with. -/
inductive PlanStart
  | bit (index : ℕ)
  | part (left right : ℤ)
  | indexed (base : G4) (width : ℕ) (negative : Bool)

namespace PlanStart

/-- The function that makes the plan. -/
def plan (storageWidth : ℕ) : PlanStart → Option SelectPlan
  | bit index => llgGmpSv4SelectPlanBit storageWidth index
  | part left right => llgGmpSv4SelectPlanPart storageWidth left right
  | indexed base width negative => llgGmpSv4SelectPlanIndexed storageWidth base width negative

/-- The selection as it is read without a plan.  The plan of a part has its bits in the order of the storage,
so it is the part with the higher bound on the left. -/
def selection : PlanStart → Selection
  | bit index => .bit index
  | part left right => .part (max left right) (min left right)
  | indexed base width negative => .indexedValue base width negative

end PlanStart

/-- A plan and the steps after it; each step is a base and a width. -/
def planChain (storageWidth : ℕ) (start : PlanStart) (steps : List (G4 × ℕ)) : Option SelectPlan := do
  let plan ← start.plan storageWidth
  steps.foldlM (fun plan step => llgGmpSv4SelectPlanStep plan step.1 step.2) plan

/-- The selections one after another, each within the value of the one before. -/
def selectChain (storage : G4) (start : PlanStart) (steps : List (G4 × ℕ)) : Option G4 := do
  let value ← start.selection.read storage
  steps.foldlM (fun value step => llgGmpSv4IdxPartSelectValue value step.1 step.2 false) value

/-! ## Addresses -/

/-- The addresses of the whole storage. -/
def wholeAddress (storageWidth : ℕ) (i : ℤ) : Option ℕ :=
  if 0 ≤ i ∧ i < storageWidth then some i.toNat else none

/-- The addresses of a selection of `width` bits from `low` on; none without a position. -/
def stepAddress (low : Option ℤ) (width : ℕ) (address : ℤ → Option ℕ) (i : ℤ) : Option ℕ :=
  if 0 ≤ i ∧ i < width then low.bind fun low => address (low + i) else none

/-- The index of a base: none if it has unknown bits. -/
def baseIndex (base : G4) : Option ℤ := if base.bNat ≠ 0 then none else some (base.intAs base.isSigned)

/-- The lowest position of the first selection. -/
def PlanStart.origin : PlanStart → Option ℤ
  | .bit index => some index
  | .part left right => some (min left right)
  | .indexed base width negative => (baseIndex base).map fun index => indexedOrigin index width negative

/-- The bit of the storage that bit `i` of the last selection is. -/
def chainAddress (storageWidth : ℕ) (start : PlanStart) (steps : List (G4 × ℕ)) : ℤ → Option ℕ :=
  steps.foldl (fun address step => stepAddress (baseIndex step.1) step.2 address)
    (stepAddress start.origin start.selection.width (wholeAddress storageWidth))

/-- The bit of the storage that bit `i` of the planned selection is. -/
def SelectPlan.address (plan : SelectPlan) (i : ℤ) : Option ℕ :=
  if plan.valueLsb ≤ i ∧ i < plan.valueLsb + plan.count then
    some (plan.storageLsb + (i - plan.valueLsb).toNat)
  else none

/-- The plan passes its check and stands for the addresses. -/
structure SelectPlan.Represents (plan : SelectPlan) (storageWidth width : ℕ) (address : ℤ → Option ℕ) :
    Prop where
  valid : g4SelectionPlanCheck plan = true
  storageWidth : plan.storageWidth = storageWidth
  width : plan.width = width
  address : ∀ i, plan.address i = address i

lemma check_iff {plan : SelectPlan} : g4SelectionPlanCheck plan = true ↔
    0 < plan.storageWidth ∧ plan.storageWidth < llgGmpSupportedWidthLimit ∧ 0 < plan.width ∧
      plan.width < llgGmpSupportedWidthLimit ∧ plan.storageLsb + plan.count ≤ plan.storageWidth ∧
      plan.valueLsb + plan.count ≤ plan.width := by
  rw [g4SelectionPlanCheck, decide_eq_true_iff]
  omega

/-- A plan is determined by the fields it has after its check. -/
lemma represents_checked {plan : SelectPlan} {storageWidth width : ℕ} {address : ℤ → Option ℕ}
    (h : plan.Represents storageWidth width address) :
    ∃ out, checked plan = some out ∧ out.Represents storageWidth width address :=
  ⟨plan, if_pos h.valid, h⟩

section Starts

variable {storageWidth width : ℕ}

lemma SelectPlan.Represents.congr {plan : SelectPlan} {address address' : ℤ → Option ℕ}
    (h : plan.Represents storageWidth width address) (haddress : ∀ i, address i = address' i) :
    plan.Represents storageWidth width address' :=
  ⟨h.valid, h.storageWidth, h.width, fun i => (h.address i).trans (haddress i)⟩

variable (hpos : 0 < storageWidth) (hwide : storageWidth < llgGmpSupportedWidthLimit)
include hpos hwide

/-- The plan of a window of the storage. -/
lemma window_represents
    (hwidth : 0 < width) (hlimit : width < llgGmpSupportedWidthLimit) (low : ℤ) :
    ∃ plan, llgGmpSv4SelectPlanWindow storageWidth width low = some plan ∧
      plan.Represents storageWidth width (stepAddress (some low) width (wholeAddress storageWidth)) := by
  have hinit : llgGmpSv4SelectPlanInit storageWidth = some ⟨storageWidth, storageWidth, 0, 0, storageWidth⟩ :=
    if_pos (check_iff.2 (by dsimp only; omega))
  have hsupported : g4SelectionWidth width = some width := if_neg (by omega)
  simp only [llgGmpSv4SelectPlanWindow, hinit, hsupported, bind_eq_bind, bind_some]
  by_cases hout : low ≥ storageWidth ∨ low ≤ -width
  · rw [if_pos hout]
    refine represents_checked ⟨check_iff.2 (by dsimp only; omega), rfl, rfl, fun i => ?_⟩
    rw [SelectPlan.address, if_neg (by dsimp only; omega), stepAddress]
    split_ifs with hi
    · exact (if_neg (by omega)).symm
    · rfl
  · rw [if_neg hout]
    have hstart : (if low > 0 then low else 0) = max low 0 := by
      split_ifs <;> omega
    have hlast : (if low + width > storageWidth then (storageWidth : ℤ) else low + width) =
        min (low + width) storageWidth := by
      split_ifs <;> omega
    rw [hstart, hlast]
    refine represents_checked ⟨check_iff.2 (by dsimp only; omega), rfl, rfl, fun i => ?_⟩
    rw [SelectPlan.address, stepAddress, bind_some, wholeAddress]
    dsimp only
    by_cases hin : (0 ≤ i ∧ i < width) ∧ 0 ≤ low + i ∧ low + i < storageWidth
    · rw [if_pos (by omega), if_pos hin.1, if_pos hin.2]
      exact congrArg some (by omega)
    · rw [if_neg (by omega)]
      split_ifs with h₁ h₂
      · exact absurd ⟨h₁, h₂⟩ hin
      · rfl
      · rfl

/-- Positions that all lie outside the storage are as good as none. -/
lemma window_represents_outside
    (hwidth : 0 < width) (hlimit : width < llgGmpSupportedWidthLimit) {low : ℤ} (hlow : low ≤ -width)
    {origin : Option ℤ} (horigin : ∀ o ∈ origin, ∀ i : ℕ, i < width → o + i < 0 ∨ storageWidth ≤ o + i) :
    ∃ plan, llgGmpSv4SelectPlanWindow storageWidth width low = some plan ∧
      plan.Represents storageWidth width (stepAddress origin width (wholeAddress storageWidth)) := by
  obtain ⟨plan, hplan, hrepresents⟩ := window_represents hpos hwide hwidth hlimit low
  refine ⟨plan, hplan, hrepresents.congr fun i => ?_⟩
  rw [stepAddress, stepAddress]
  by_cases hi : 0 ≤ i ∧ i < width
  · rw [if_pos hi, if_pos hi, bind_some, wholeAddress, if_neg (by omega)]
    cases origin with
    | none => rfl
    | some o =>
      have hout := horigin o rfl i.toNat (by omega)
      exact (if_neg (by omega)).symm
  · rw [if_neg hi, if_neg hi]

lemma bit_represents
    (index : ℕ) :
    ∃ plan, llgGmpSv4SelectPlanBit storageWidth index = some plan ∧
      plan.Represents storageWidth 1 (stepAddress (some index) 1 (wholeAddress storageWidth)) := by
  rw [llgGmpSv4SelectPlanBit]
  split_ifs with hout
  · refine window_represents_outside hpos hwide Nat.one_pos (by decide) (by omega) ?_
    rintro _ ⟨⟩ i hi
    omega
  · exact window_represents hpos hwide Nat.one_pos (by decide) index

lemma part_represents
    {left right : ℤ} (hlimit : (left - right).natAbs + 1 < llgGmpSupportedWidthLimit) :
    ∃ plan, llgGmpSv4SelectPlanPart storageWidth left right = some plan ∧
      plan.Represents storageWidth ((left - right).natAbs + 1)
        (stepAddress (some (min left right)) ((left - right).natAbs + 1) (wholeAddress storageWidth)) := by
  have hlow : (if left < right then left else right) = min left right := by
    split_ifs <;> omega
  simp only [llgGmpSv4SelectPlanPart, g4SelectionPartWidth_eq, if_pos hlimit, bind_eq_bind,
    bind_some, hlow]
  exact window_represents hpos hwide (Nat.succ_pos _) hlimit _

lemma indexed_represents
    (hwidth : 0 < width) (hlimit : width < llgGmpSupportedWidthLimit) {base : G4} (hbase : base.Canonical)
    (negative : Bool) :
    ∃ plan, llgGmpSv4SelectPlanIndexed storageWidth base width negative = some plan ∧
      plan.Represents storageWidth width
        (stepAddress ((baseIndex base).map fun index => indexedOrigin index width negative) width
          (wholeAddress storageWidth)) := by
  have hsupported : g4SelectionWidth width = some width := if_neg (by omega)
  simp only [llgGmpSv4SelectPlanIndexed, if_neg hwidth.ne', hsupported, bind_eq_bind, bind_some,
    g4SelectionIndex_eq hbase, baseIndex]
  by_cases hknown : base.bNat ≠ 0
  · rw [if_pos hknown, if_pos hknown]
    exact window_represents_outside hpos hwide hwidth hlimit le_rfl nofun
  rw [if_neg hknown, if_neg hknown, map_some]
  generalize base.intAs base.isSigned = index
  rw [llgGmpSupportedWidthLimit] at hwide hlimit
  by_cases hrange : -2 ^ 63 ≤ index ∧ index < 2 ^ 63
  · rw [int64Of, if_pos hrange, indexedOrigin]
    cases negative with
    | false =>
      rw [if_neg Bool.false_ne_true, Int.sub_zero]
      exact window_represents hpos hwide hwidth hlimit index
    | true =>
      rw [if_pos rfl]
      by_cases hneg : index < 0
      · simp only [if_pos hneg, if_true]
        refine window_represents_outside hpos hwide hwidth hlimit le_rfl ?_
        rintro _ ⟨⟩ i hi
        omega
      · simp only [if_neg hneg, if_true]
        exact window_represents hpos hwide hwidth hlimit _
  · rw [int64Of, if_neg hrange]
    refine window_represents_outside hpos hwide hwidth hlimit le_rfl ?_
    rintro _ ⟨⟩ i hi
    rw [indexedOrigin]
    split_ifs <;> omega

end Starts

/-! ## Steps -/

section Steps

variable {plan : SelectPlan} {storageWidth width : ℕ} {address : ℤ → Option ℕ}

/-- An empty plan addresses nothing. -/
lemma empty_represents (h : plan.Represents storageWidth width address) {width' : ℕ} (hpos : 0 < width')
    (hlimit : width' < llgGmpSupportedWidthLimit) {address' : ℤ → Option ℕ} (hnone : ∀ i, address' i = none) :
    (plan.empty width').Represents storageWidth width' address' := by
  have hvalid := check_iff.1 h.valid
  refine ⟨check_iff.2 ?_, h.storageWidth, rfl, fun i => ?_⟩
  · simp only [SelectPlan.empty]
    omega
  · rw [hnone, SelectPlan.address, SelectPlan.empty]
    exact if_neg (by dsimp only; omega)

/-- A step selects within what the plan selects. -/
lemma step_represents (h : plan.Represents storageWidth width address) {base : G4} (hbase : base.Canonical)
    {width' : ℕ} (hpos : 0 < width') (hlimit : width' < llgGmpSupportedWidthLimit) :
    ∃ out, llgGmpSv4SelectPlanStep plan base width' = some out ∧
      out.Represents storageWidth width' (stepAddress (baseIndex base) width' address) := by
  have hsupported : g4SelectionWidth width' = some width' := if_neg (by omega)
  have hchecked : checked plan = some plan := if_pos h.valid
  have hvalid := check_iff.1 h.valid
  simp only [llgGmpSv4SelectPlanStep, hchecked, hsupported, if_neg hpos.ne', bind_eq_bind,
    bind_some, g4SelectionIndex_eq hbase, baseIndex]
  by_cases hknown : base.bNat ≠ 0
  · rw [if_pos hknown, if_pos hknown]
    exact ⟨_, rfl, empty_represents h hpos hlimit fun i => by simp [stepAddress]⟩
  rw [if_neg hknown, if_neg hknown]
  generalize base.intAs base.isSigned = low
  have haddress : ∀ i, stepAddress (some low) width' address i =
      if 0 ≤ i ∧ i < width' then plan.address (low + i) else none := fun i => by
    rw [stepAddress, bind_some, h.address]
  -- With no valid bit in the window the new plan is empty.
  have hempty : (∀ i : ℤ, 0 ≤ i → i < width' →
      ¬(plan.valueLsb ≤ low + i ∧ low + i < plan.valueLsb + plan.count)) →
      (plan.empty width').Represents storageWidth width' (stepAddress (some low) width' address) := by
    intro hnone
    refine empty_represents h hpos hlimit fun i => ?_
    rw [haddress]
    split_ifs with hi
    · exact if_neg (hnone i hi.1 hi.2)
    · rfl
  rw [llgGmpSupportedWidthLimit] at hvalid hlimit
  by_cases hrange : -2 ^ 63 ≤ low ∧ low < 2 ^ 63
  · rw [int64Of, if_pos hrange]
    dsimp only
    by_cases hout : plan.count = 0 ∨ low ≥ plan.width ∨ low ≤ -width'
    · rw [if_pos hout]
      exact ⟨_, rfl, hempty fun i _ _ => by omega⟩
    rw [if_neg hout]
    have hstart : (if low > (plan.valueLsb : ℤ) then low else plan.valueLsb) = max low plan.valueLsb := by
      split_ifs <;> omega
    have hlast : (if low + width' < (plan.valueLsb : ℤ) + plan.count then low + width'
        else (plan.valueLsb : ℤ) + plan.count) = min (low + width') (plan.valueLsb + plan.count) := by
      split_ifs <;> omega
    rw [hstart, hlast]
    by_cases hnone : min (low + width') (plan.valueLsb + plan.count) ≤ max low (plan.valueLsb : ℤ)
    · rw [if_pos hnone]
      exact represents_checked (hempty fun i _ _ => by omega)
    · rw [if_neg hnone]
      refine represents_checked ⟨check_iff.2 ?_, h.storageWidth, rfl, fun i => ?_⟩
      · rw [llgGmpSupportedWidthLimit]
        dsimp only
        omega
      · rw [haddress, SelectPlan.address, SelectPlan.address]
        dsimp only
        by_cases hin : (0 ≤ i ∧ i < width') ∧ plan.valueLsb ≤ low + i ∧ low + i < plan.valueLsb + plan.count
        · rw [if_pos (by omega), if_pos hin.1, if_pos hin.2]
          exact congrArg some (by omega)
        · rw [if_neg (by omega)]
          split_ifs with h₁ h₂
          · exact absurd ⟨h₁, h₂⟩ hin
          · rfl
          · rfl
  · rw [int64Of, if_neg hrange]
    exact ⟨_, rfl, hempty fun i _ _ => by omega⟩

end Steps

/-- The selection has a width that is supported, and the values it is made with are canonical. -/
def PlanStart.Supported (start : PlanStart) : Prop :=
  start.selection.Canonical ∧ 0 < start.selection.width ∧
    start.selection.width < llgGmpSupportedWidthLimit

/-- The bases of the steps are canonical, and their widths are positive and supported. -/
def StepsSupported (steps : List (G4 × ℕ)) : Prop :=
  ∀ step ∈ steps, step.1.Canonical ∧ 0 < step.2 ∧ step.2 < llgGmpSupportedWidthLimit

/-- The width of the last selection. -/
def chainWidth (start : PlanStart) (steps : List (G4 × ℕ)) : ℕ :=
  steps.foldl (fun _ step => step.2) start.selection.width

section Chains

variable {storageWidth : ℕ} {start : PlanStart} {steps : List (G4 × ℕ)}

lemma start_represents (hpos : 0 < storageWidth) (hwide : storageWidth < llgGmpSupportedWidthLimit)
    (h : start.Supported) :
    ∃ plan, start.plan storageWidth = some plan ∧ plan.Represents storageWidth start.selection.width
      (stepAddress start.origin start.selection.width (wholeAddress storageWidth)) := by
  obtain ⟨hcanonical, hwidth, hlimit⟩ := h
  cases start with
  | bit index => exact bit_represents hpos hwide index
  | part left right =>
    have hspan : (max left right - min left right).natAbs = (left - right).natAbs := by omega
    simp only [PlanStart.selection, Selection.width, hspan] at hlimit ⊢
    exact part_represents hpos hwide hlimit
  | indexed base width negative => exact indexed_represents hpos hwide hwidth hlimit hcanonical negative

/-- No check fails along a chain, and the plan stands for the addresses of the chain. -/
lemma chain_represents (hpos : 0 < storageWidth) (hwide : storageWidth < llgGmpSupportedWidthLimit)
    (hstart : start.Supported) (hsteps : StepsSupported steps) :
    ∃ plan, planChain storageWidth start steps = some plan ∧
      plan.Represents storageWidth (chainWidth start steps) (chainAddress storageWidth start steps) := by
  obtain ⟨plan, hplan, hrepresents⟩ := start_represents hpos hwide hstart
  rw [planChain, hplan, bind_eq_bind, bind_some, chainWidth, chainAddress]
  generalize start.selection.width = width at hrepresents
  generalize stepAddress start.origin width (wholeAddress storageWidth) = address at hrepresents
  clear hplan hstart
  induction steps generalizing plan width address with
  | nil => exact ⟨plan, rfl, hrepresents⟩
  | cons step steps ih =>
    obtain ⟨hbase, hwidth, hlimit⟩ := hsteps step (List.mem_cons_self ..)
    obtain ⟨plan', hplan', hrepresents'⟩ := step_represents hrepresents hbase hwidth hlimit
    rw [List.foldlM_cons, hplan', bind_eq_bind, bind_some]
    exact ih (fun step hmem => hsteps step (List.mem_cons_of_mem _ hmem)) plan' step.2 _ hrepresents'

/-! ## The selections one after another -/

/-- The bits at addresses of the storage, X without one. -/
def addressedBits (storage : G4) (address : ℤ → Option ℕ) (i : ℕ) : Bit := (address i).elim .x storage.stateAt

/-- A selection within a value whose bits are at addresses of the storage. -/
lemma bitAt_addressed {storage value : G4} {width : ℕ} {address : ℤ → Option ℕ}
    (h : Yields value width false (addressedBits storage address))
    (haddress : ∀ i, ¬(0 ≤ i ∧ i < (width : ℤ)) → address i = none) (i : ℤ) :
    value.bitAt i = (address i).elim .x storage.stateAt := by
  by_cases hi : 0 ≤ i ∧ i < width
  · obtain ⟨k, rfl⟩ := Int.eq_ofNat_of_zero_le hi.1
    rw [bitAt_of_mem rfl (by rw [h.width]; omega), h.stateAt k (by omega)]
    rfl
  · rw [bitAt_of_notMem (by rw [h.width]; omega), haddress i hi]
    rfl

lemma start_selects {storage : G4} (hstorage : storage.Canonical)
    (hwide : storage.width < llgGmpSupportedWidthLimit) (h : start.Supported) :
    ∃ value, start.selection.read storage = some value ∧
      Yields value start.selection.width false (addressedBits storage
        (stepAddress start.origin start.selection.width (wholeAddress storage.width))) := by
  obtain ⟨hcanonical, -, hlimit⟩ := h
  obtain ⟨value, hvalue, hyields⟩ := selection_reads hstorage hwide hcanonical hlimit
  refine ⟨value, hvalue, hyields.congr fun i hi => ?_⟩
  have hposition : start.selection.position i = start.origin.map (· + (i : ℤ)) := by
    cases start with
    | bit => rfl
    | part left right =>
      exact congrArg some (if_pos (min_le_max : min left right ≤ max left right))
    | indexed =>
      simp only [PlanStart.selection, PlanStart.origin, Selection.position, baseIndex]
      split_ifs <;> rfl
  rw [addressed, hposition, addressedBits, stepAddress, if_pos (by omega)]
  cases start.origin with
  | none => rfl
  | some =>
    rw [map_some, elim_some, bind_some, wholeAddress, G4.bitAt]
    split_ifs <;> rfl

/-- The selections one after another yield the addressed bits. -/
lemma chain_selects {storage : G4} (hstorage : storage.Canonical)
    (hwide : storage.width < llgGmpSupportedWidthLimit) (hstart : start.Supported)
    (hsteps : StepsSupported steps) :
    ∃ value, selectChain storage start steps = some value ∧
      Yields value (chainWidth start steps) false
        (addressedBits storage (chainAddress storage.width start steps)) := by
  obtain ⟨value, hvalue, hyields⟩ := start_selects hstorage hwide hstart
  have hlimit := hstart.2.2
  rw [selectChain, hvalue, bind_eq_bind, bind_some, chainWidth, chainAddress]
  have hnone : ∀ i, ¬(0 ≤ i ∧ i < (start.selection.width : ℤ)) →
      stepAddress start.origin start.selection.width (wholeAddress storage.width) i = none :=
    fun i hi => if_neg hi
  generalize start.selection.width = width at hyields hnone hlimit
  generalize stepAddress start.origin width (wholeAddress storage.width) = address at hyields hnone
  clear hvalue hstart
  induction steps generalizing value width address with
  | nil => exact ⟨value, rfl, hyields⟩
  | cons step steps ih =>
    obtain ⟨hbase, -, hlimit'⟩ := hsteps step (List.mem_cons_self ..)
    obtain ⟨value', hvalue', hyields'⟩ :=
      llgGmpSv4IdxPartSelectValue_reads hyields.canonical hbase hlimit' false
    rw [List.foldlM_cons, hvalue', bind_eq_bind, bind_some]
    refine ih (fun step hmem => hsteps step (List.mem_cons_of_mem _ hmem)) value' step.2 hlimit'
      (stepAddress (baseIndex step.1) step.2 address) (hyields'.congr fun i hi => ?_) fun i hi => if_neg hi
    have hstep : stepAddress (baseIndex step.1) step.2 address i =
        (baseIndex step.1).bind fun low => address (low + i) := if_pos (by omega)
    rw [addressedBits, hstep, baseIndex]
    split_ifs with hknown
    · rfl
    · rw [indexedBit_lowOf value (hyields.width ▸ hlimit) hlimit' _ false hi, indexedOrigin,
        if_neg Bool.false_ne_true, Int.sub_zero, bitAt_addressed hyields hnone]
      rfl

end Chains

/-! ## Reading and assigning through a plan -/

section Through

variable {plan : SelectPlan} {storage source : G4}

/-- Some bits of a narrow value are replaced by bits of another one. -/
lemma yields_maskedCopy {v : G4} (hv : v.Canonical) (hw : v.width ≤ 64) (hsource : source.Canonical)
    (hs : source.width ≤ 64) {start count : ℕ} (hfits : start + count ≤ v.width) (low : ℕ) :
    Yields (v.putSmall
      ((v.smallA &&& ~~~(g4Mask count <<< start)) |||
        (((source.smallA >>> low) <<< start) &&& (g4Mask count <<< start)))
      ((v.smallB &&& ~~~(g4Mask count <<< start)) |||
        (((source.smallB >>> low) <<< start) &&& (g4Mask count <<< start)))) v.width v.isSigned
      fun i => if start ≤ i ∧ i < start + count then source.stateAt (low + (i - start)) else v.stateAt i := by
  have hbelow : ∀ {x y : BitVec 64}, Below v.width x →
      Below v.width ((x &&& ~~~(g4Mask count <<< start)) ||| (y &&& (g4Mask count <<< start))) := by
    intro x y hx k hk
    by_cases hlt : k < 64
    · rw [getLsbD_masked _ _ _ _ hlt, if_neg (by omega), hx k hk]
    · exact BitVec.getLsbD_of_ge _ _ (by omega)
  refine ⟨putSmall_canonical hw (hbelow (hv.below_smallA hw)) (hbelow (hv.below_smallB hw)), rfl, rfl,
    fun i hi => ?_⟩
  rw [G4.putSmall, stateAt_singleton, getLsbD_masked _ _ _ _ (by omega), getLsbD_masked _ _ _ _ (by omega)]
  by_cases hin : start ≤ i ∧ i < start + count
  · rw [if_pos hin, if_pos hin, if_pos hin, hsource.stateAt_small hs]
    simp only [BitVec.getLsbD_shiftLeft, BitVec.getLsbD_ushiftRight, show i < 64 by omega,
      Nat.not_lt.2 hin.1, decide_true, decide_false, Bool.not_false, Bool.true_and]
  · rw [if_neg hin, if_neg hin, if_neg hin, hv.stateAt_small hw]

/-- The bits that a plan reads. -/
lemma planRead_yields (hvalid : g4SelectionPlanCheck plan = true) (hstorage : storage.Canonical)
    (hwidth : storage.width = plan.storageWidth) :
    ∃ out, llgGmpSv4SelectPlanRead storage plan = some out ∧
      Yields out plan.width false (addressedBits storage plan.address) := by
  have hfields := check_iff.1 hvalid
  have hbits : ∀ i, addressedBits storage plan.address i =
      if plan.valueLsb ≤ i ∧ i < plan.valueLsb + plan.count then
        storage.stateAt (plan.storageLsb + (i - plan.valueLsb)) else .x := by
    intro i
    rw [addressedBits, SelectPlan.address]
    by_cases hi : plan.valueLsb ≤ i ∧ i < plan.valueLsb + plan.count
    · rw [if_pos hi, if_pos (by omega), elim_some]
      congr 1
      omega
    · rw [if_neg hi, if_neg (by omega)]
      rfl
  rw [llgGmpSv4SelectPlanRead, if_neg (by simp [hvalid, hwidth])]
  by_cases hlarge : storage.width > 64 ∨ plan.width > 64
  · rw [if_pos hlarge]
    refine ⟨_, rfl, ?_⟩
    have hzero := llgGmpSv4Zero_shaped plan.width false
    have hfirst := hzero.fillBits 0 2 (by omega : plan.width = 0 → plan.valueLsb = 0)
    have hsecond := hfirst.fillBits (plan.valueLsb + plan.count) 2
      (by omega : plan.width = 0 → plan.width - plan.valueLsb - plan.count = 0)
    have hcopy := hsecond.copyBits plan.valueLsb storage plan.storageLsb
      (by omega : plan.width = 0 → plan.count = 0)
    have hfinish := hcopy.yields_finish
    rw [isSigned_g4CopyBits, isSigned_g4FillBits, isSigned_g4FillBits, isSigned_llgGmpSv4Zero] at hfinish
    refine hfinish.congr fun i hi => ?_
    rw [hbits, stateAt_g4CopyBits hsecond (by omega), stateAt_g4FillBits hfirst (by omega),
      stateAt_g4FillBits hzero (by omega)]
    by_cases hin : plan.valueLsb ≤ i ∧ i < plan.valueLsb + plan.count
    · rw [if_pos hin, if_pos hin]
    · rw [if_neg hin, if_neg hin]
      split_ifs <;> first | rfl | omega
  · rw [if_neg hlarge]
    have hall := yields_allOnes (by omega : plan.width ≤ 64)
    by_cases hcount : plan.count = 0
    · rw [if_pos hcount]
      exact ⟨_, rfl, hall.congr fun i hi => by rw [hbits, if_neg (by omega)]⟩
    · rw [if_neg hcount]
      have hcopy := yields_maskedCopy hall.canonical (by rw [hall.width]; omega) hstorage (by omega)
        (by rw [hall.width]; omega : plan.valueLsb + plan.count ≤ _) plan.storageLsb
      refine ⟨_, rfl, hcopy.congr fun i hi => ?_⟩
      rw [hbits, hall.stateAt i hi]

/-- The bits of the storage after an assignment through a plan. -/
lemma planSet_yields (hvalid : g4SelectionPlanCheck plan = true) (hstorage : storage.Canonical)
    (hwidth : storage.width = plan.storageWidth) (hsource : source.Canonical)
    (hsourceWidth : source.width = plan.width) :
    ∃ out, llgGmpSv4SelectPlanSet storage plan source = some out ∧
      Yields out storage.width storage.isSigned fun p =>
        if plan.storageLsb ≤ p ∧ p < plan.storageLsb + plan.count then
          source.stateAt (plan.valueLsb + (p - plan.storageLsb)) else storage.stateAt p := by
  have hfields := check_iff.1 hvalid
  have hempty : plan.count = 0 → Yields storage storage.width storage.isSigned fun p =>
      if plan.storageLsb ≤ p ∧ p < plan.storageLsb + plan.count then
        source.stateAt (plan.valueLsb + (p - plan.storageLsb)) else storage.stateAt p :=
    fun hcount => hstorage.yields.congr fun p _ => (if_neg (by omega)).symm
  rw [llgGmpSv4SelectPlanSet, if_neg (by simp [hvalid, hwidth, hsourceWidth])]
  by_cases hlarge : storage.width > 64 ∨ source.width > 64
  · rw [if_pos hlarge, llgGmpSv4SelectPlanSetWide]
    refine ⟨_, rfl, ?_⟩
    split_ifs with hcount
    · exact hempty hcount
    · have hcopy := hstorage.shaped.copyBits plan.storageLsb source plan.valueLsb
        (by omega : storage.width = 0 → plan.count = 0)
      have hfinish := hcopy.yields_finish
      rw [isSigned_g4CopyBits] at hfinish
      exact hfinish.congr fun p _ => stateAt_g4CopyBits hstorage.shaped (by omega) source plan.valueLsb p
  · rw [if_neg hlarge]
    by_cases hcount : plan.count = 0
    · rw [if_pos hcount]
      exact ⟨_, rfl, hempty hcount⟩
    · rw [if_neg hcount]
      exact ⟨_, rfl, yields_maskedCopy hstorage (by omega) hsource (by omega) (by omega) plan.valueLsb⟩

/-- `llg_gmp_sv4_select_plan_set` on stored values: a wide source in the block of the target is copied. -/
def Slot.selectPlanSet (dst : Slot) (plan : SelectPlan) (source : Cell) : Option Slot :=
  if g4SelectionPlanCheck plan = false ∨ dst.value.width ≠ plan.storageWidth ∨
      (dst.heap.load source).width ≠ plan.width then none
  else if dst.value.width > 64 ∨ (dst.heap.load source).width > 64 then
    if plan.count = 0 then some dst
    else some (dst.withSnapshot source fun dst source =>
      (dst.copyBits plan.storageLsb source plan.valueLsb plan.count).finish)
  else (llgGmpSv4SelectPlanSet dst.value plan (dst.heap.load source)).map dst.store

/-- The width of a stored value is in its cell. -/
lemma load_width (heap heap' : Heap) (cell : Cell) : (heap'.load cell).width = (heap.load cell).width := by
  cases cell with
  | small => rfl
  | wide width isSigned address =>
    rw [(Slot.load_wide heap width isSigned address).1, (Slot.load_wide heap' width isSigned address).1]

/-- The stored value is the one that the assignment computes, and no other block changes. -/
lemma Slot.selectPlanSet_updates {dst : Slot} {cell : Cell} (h : Operands dst cell)
    (hvalid : g4SelectionPlanCheck plan = true) (hwidth : dst.value.width = plan.storageWidth)
    (hsource : (dst.heap.load cell).width = plan.width) {v : G4}
    (hv : llgGmpSv4SelectPlanSet dst.value plan (dst.heap.load cell) = some v) (hvWidth : v.width = dst.value.width)
    (hvSigned : v.isSigned = dst.value.isSigned) :
    ∃ out, dst.selectPlanSet plan cell = some out ∧ dst.Updates out v := by
  have hmismatch : ¬(g4SelectionPlanCheck plan = false ∨ dst.value.width ≠ plan.storageWidth ∨
      (dst.heap.load cell).width ≠ plan.width) := by simp [hvalid, hwidth, hsource]
  have hfields := check_iff.1 hvalid
  rw [Slot.selectPlanSet, if_neg hmismatch]
  by_cases hlarge : dst.value.width > 64 ∨ (dst.heap.load cell).width > 64
  · rw [llgGmpSv4SelectPlanSet, if_neg hmismatch, if_pos hlarge, llgGmpSv4SelectPlanSetWide] at hv
    obtain rfl := Option.some.inj hv
    rw [if_pos hlarge]
    by_cases hcount : plan.count = 0
    · rw [if_pos hcount, if_pos hcount]
      exact ⟨dst, rfl, .refl h.live⟩
    · rw [if_neg hcount, if_neg hcount]
      -- The copy is described for targets that have bits, which the target is, also beside a snapshot.
      have hassigning : Slot.Assigning
          (fun dst source => if dst.value.width = 0 then dst
            else (dst.copyBits plan.storageLsb source plan.valueLsb plan.count).finish)
          fun target value => if target.width = 0 then target
            else llgGmpSv4Finish (g4CopyBits target plan.storageLsb value plan.valueLsb plan.count) := by
        intro dst source hlive hsrc hsep hcanonical
        dsimp only
        split_ifs with hzero
        · exact .refl hlive
        · exact ((Slot.Updates.refl hlive).copyBits hsrc hsep _ _ _).finish
            (hcanonical.shaped.copyBits _ _ _ fun h => absurd h hzero)
      have hupdates := Slot.withSnapshot_updates hassigning h.live h.source_live h.canonical
      have hpos : dst.value.width ≠ 0 := by omega
      have hbits : ∀ heap : Heap, (Slot.value ⟨heap, dst.cell⟩).width ≠ 0 :=
        fun heap => load_width heap dst.heap dst.cell ▸ hpos
      simp only [Slot.withSnapshot, if_neg hpos, if_neg (hbits _)] at hupdates ⊢
      exact ⟨_, rfl, hupdates⟩
  · rw [if_neg hlarge, hv]
    exact ⟨_, rfl, Slot.store_updates h.live hvWidth hvSigned⟩

end Through

/-! ## Chains of selections -/

/-- For storage of every supported width, every first selection and every chain of steps: no check of the plan
fails; reading through the plan is performing the selections one after another; and an assignment through
the plan, also of a source that shares the block of the storage, replaces the addressed bits, which are read
back, and leaves the other bits and all other values as they were. -/
theorem plans_compose (start : PlanStart) (hstart : start.Supported) (steps : List (G4 × ℕ))
    (hsteps : StepsSupported steps) (storageWidth : ℕ) (hpos : 0 < storageWidth)
    (hwide : storageWidth < llgGmpSupportedWidthLimit) :
    ∃ plan, planChain storageWidth start steps = some plan ∧ g4SelectionPlanCheck plan = true ∧
      (∀ storage : G4, storage.Canonical → storage.width = storageWidth →
        (selectChain storage start steps).isSome ∧
          llgGmpSv4SelectPlanRead storage plan = selectChain storage start steps) ∧
      ∀ (dst : Slot) (source : Cell), Operands dst source → dst.value.width = storageWidth →
        (dst.heap.load source).width = plan.width →
        ∃ out, dst.selectPlanSet plan source = some out ∧ out.value.Canonical ∧
          out.value.width = storageWidth ∧ out.value.isSigned = dst.value.isSigned ∧
          (∃ back, llgGmpSv4SelectPlanRead out.value plan = some back ∧ back.width = plan.width ∧
            ∀ i < plan.width, back.stateAt i =
              if (chainAddress storageWidth start steps i).isSome then (dst.heap.load source).stateAt i
              else .x) ∧
          (∀ p < storageWidth, (∀ i : ℤ, chainAddress storageWidth start steps i ≠ some p) →
            out.value.stateAt p = dst.value.stateAt p) ∧
          ∀ d, dst.heap.Live d → dst.cell.Separate d → out.heap.load d = dst.heap.load d := by
  obtain ⟨plan, hplan, hrepresents⟩ := chain_represents hpos hwide hstart hsteps
  have hvalid := hrepresents.valid
  have hfields := check_iff.1 hvalid
  refine ⟨plan, hplan, hvalid, fun storage hstorage hwidth => ?_, fun dst source h hwidth hsource => ?_⟩
  · obtain rfl := hwidth
    obtain ⟨value, hvalue, hyields⟩ := chain_selects hstorage hwide hstart hsteps
    obtain ⟨out, hout, hread⟩ := planRead_yields hvalid hstorage hrepresents.storageWidth.symm
    rw [hrepresents.width] at hread
    rw [hvalue, hout]
    refine ⟨rfl, congrArg some (hread.unique (hyields.congr fun i _ => ?_))⟩
    rw [addressedBits, addressedBits, hrepresents.address]
  · have hstorageWidth : dst.value.width = plan.storageWidth := hwidth.trans hrepresents.storageWidth.symm
    obtain ⟨v, hv, hyields⟩ := planSet_yields hvalid h.canonical hstorageWidth h.source_canonical hsource
    obtain ⟨out, hout, hupdates⟩ :=
      Slot.selectPlanSet_updates h hvalid hstorageWidth hsource hv hyields.width hyields.isSigned
    obtain rfl := hupdates.value
    obtain ⟨back, hback, hbits⟩ := planRead_yields hvalid hyields.canonical (hyields.width.trans hstorageWidth)
    refine ⟨out, hout, hyields.canonical, hyields.width.trans hwidth, hyields.isSigned,
      ⟨back, hback, hbits.width, fun i hi => ?_⟩, fun p hp hother => ?_,
      fun d hd hsep => (hupdates.other d hd hsep).2.1⟩
    · rw [hbits.stateAt i hi, addressedBits, ← hrepresents.address, SelectPlan.address]
      by_cases hin : (plan.valueLsb : ℤ) ≤ i ∧ (i : ℤ) < plan.valueLsb + plan.count
      · rw [if_pos hin, elim_some, isSome_some, if_pos rfl, hyields.stateAt _ (by omega),
          if_pos (by omega)]
        congr 1
        omega
      · rw [if_neg hin]
        rfl
    · rw [hyields.stateAt p (by omega)]
      refine if_neg fun hin => hother (plan.valueLsb + (p - plan.storageLsb : ℕ)) ?_
      rw [← hrepresents.address, SelectPlan.address, if_pos (by omega)]
      exact congrArg some (by omega)

/-- The steps of the chain below: 70 bits from position 2 on. -/
def twoUp : List (G4 × ℕ) := [(g4Small 2 0 8 false, 70)]

lemma twoUp_supported : StepsSupported twoUp := by
  rintro _ hmem
  obtain rfl := List.mem_singleton.1 hmem
  exact ⟨(g4Small_canonical (by decide) 2 0 false).1, by decide, by decide⟩

/-- A value of 70 bits is assigned to a part of a part of itself; both lie partly outside it. -/
theorem plans_compose_shared :
    planChain 70 (.part 66 (-3)) twoUp = some ⟨70, 70, 0, 1, 67⟩ ∧
      ∃ out, sharedSlot.selectPlanSet ⟨70, 70, 0, 1, 67⟩ sharedSlot.cell = some out ∧ out.value.Canonical := by
  have hchain : planChain 70 (.part 66 (-3)) twoUp = some ⟨70, 70, 0, 1, 67⟩ := rfl
  obtain ⟨plan, hplan, -, -, hset⟩ := plans_compose (.part 66 (-3)) ⟨trivial, by decide, by decide⟩ twoUp
    twoUp_supported 70 (by decide) (by decide)
  obtain rfl := Option.some.inj (hchain.symm.trans hplan)
  obtain ⟨out, hout, hcanonical, -⟩ := hset sharedSlot sharedSlot.cell sharedSlot_operands rfl rfl
  exact ⟨hchain, out, hout, hcanonical⟩

/-- The plan of an ascending part has its bits in the order of the storage, while the part itself is read in
the order of its bounds; there is no plan for storage without bits, and no step to an unsupported width. -/
theorem plan_ascending_part :
    (llgGmpSv4SelectPlanPart 2 0 1).bind (llgGmpSv4SelectPlanRead (g4Small 1 0 2 false)) =
        some (g4Small 1 0 2 false) ∧
      llgGmpSv4PartSelect (g4Small 1 0 2 false) 0 1 = some (g4Small 2 0 2 false) ∧
      llgGmpSv4SelectPlanBit 0 0 = none ∧
      (llgGmpSv4SelectPlanBit 2 0).bind (llgGmpSv4SelectPlanStep · (g4Small 0 0 1 false) (2 ^ 20)) = none := by
  decide +kernel

end Lapligence.Value
