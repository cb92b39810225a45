import Lapligence.Constraints.Aig

/-!
# Reduced ordered decision diagrams

`constraints/bdd.c` converts a component's and-inverter graph into a reduced ordered binary
decision diagram.  `CrBdd` is the manager: nodes `0` and `1` are the terminals, every later
node has a level and two children, the *unique table* finds the node of a triple, and the
*computed table* is a direct-mapped, lossy memo of the recursive operations.

The operations recurse below the levels of their operands, so one step per level bounds
them; the `fuel` of the recursive definitions is that bound.

This file models the manager and the operations `crBddNot`, `crBddAnd`, `crBddOr`,
`crBddExists`, `crBddConvert` and `crBddFromAig`.  What they keep and compute is proved in
`Constraints/BddCanonical.lean`.
-/

namespace Lapligence.Constraints

open Function LinearProbing

/-- `cr_bdd_t`.  The arrays are maps from indices; buffers pooled from an earlier build are
not modelled, since nothing reads them before they are reset. -/
structure CrBdd where
  level : ℕ → ℕ
  lo : ℕ → ℕ
  hi : ℕ → ℕ
  count : ℕ
  table : ℕ → ℕ
  tableCap : ℕ
  cacheKey : ℕ → ℕ
  cacheVal : ℕ → ℕ
  cacheCap : ℕ
  levels : ℕ
  limit : ℕ
  steps : ℕ
  overflow : ℕ

/-- `CR_BDD_OVER_STEPS`. -/
def crBddOverSteps : ℕ := 1

/-- `CR_BDD_OVER_NODES`. -/
def crBddOverNodes : ℕ := 2

def crBddHash (l lo hi : ℕ) : ℕ :=
  (((lo * 2 ^ 32) % 2 ^ 64) ^^^ hi ^^^ (l * 0x9e3779b97f4a7c15 % 2 ^ 64)) * 0xbf58476d1ce4e5b9
    % 2 ^ 64 / 2 ^ 32

/-- An empty computed table of `entries`; a key of `0` is no operation. -/
def crBddCacheReset (m : CrBdd) (entries : ℕ) : CrBdd :=
  { m with cacheKey := fun _ => 0, cacheCap := entries }

def crBddInit (levels limit : ℕ) : CrBdd where
  level := fun _ => levels
  lo := fun _ => 0
  hi := fun _ => 0
  count := 2
  table := fun _ => 0
  tableCap := 2048
  cacheKey := fun _ => 0
  cacheVal := fun _ => 0
  cacheCap := 16384
  levels := levels
  limit := if limit < 2 then 2 else limit
  steps := 0
  overflow := 0

/-- Double the unique table; the computed table grows with it and growing empties it. -/
def crBddRehash (m : CrBdd) : CrBdd :=
  let cap := m.tableCap * 2
  let m := { m with
    table := reinsert cap (fun n => crBddHash (m.level n) (m.lo n) (m.hi n)) 2 m.count
    tableCap := cap }
  if m.cacheCap < m.tableCap * 2 then crBddCacheReset m (m.tableCap * 2) else m

/-- Append the node `(l, lo, hi)`, filed in the vacant `slot`. -/
def crBddAppend (m : CrBdd) (slot l lo hi : ℕ) : CrBdd :=
  let m := { m with
    level := update m.level m.count l
    lo := update m.lo m.count lo
    hi := update m.hi m.count hi
    table := update m.table slot m.count
    count := m.count + 1 }
  if m.count * 2 > m.tableCap then crBddRehash m else m

/-- The table part of `cr_bdd_mk`. -/
def crBddIntern (l lo hi : ℕ) : StateM CrBdd ℕ := fun m =>
  match probe m.table m.tableCap (fun n => m.level n == l && m.lo n == lo && m.hi n == hi)
      m.tableCap (crBddHash l lo hi % m.tableCap) with
  | .found n => (n, m)
  | .vacant slot =>
    if m.count ≥ m.limit ∨ m.count ≥ crNodeMax then (0, { m with overflow := crBddOverNodes })
    else (m.count, crBddAppend m slot l lo hi)
  -- The table always has a vacant slot (`CrBdd.Wf.load`).
  | .exhausted => (0, m)

def crBddMk (l lo hi : ℕ) : StateM CrBdd ℕ := fun m =>
  if lo = hi then (lo, m)
  else if m.overflow ≠ 0 then (0, m)
  else crBddIntern l lo hi m

/-! ## The computed table -/

def crBddKey (op a b : ℕ) : ℕ := op * 2 ^ 62 ||| a * 2 ^ 31 ||| b

def crBddSlot (m : CrBdd) (key : ℕ) : ℕ :=
  key * 0x9e3779b97f4a7c15 % 2 ^ 64 / 2 ^ 20 % m.cacheCap

def crBddLookup (m : CrBdd) (key : ℕ) : Option ℕ :=
  if m.cacheKey (crBddSlot m key) = key then some (m.cacheVal (crBddSlot m key)) else none

/-- Remember a result unless the build overflowed; an older entry of the slot is lost. -/
def crBddStore (key value : ℕ) : StateM CrBdd Unit := fun m =>
  if m.overflow = 0 then
    ((), { m with
      cacheKey := update m.cacheKey (crBddSlot m key) key
      cacheVal := update m.cacheVal (crBddSlot m key) value })
  else ((), m)

/-- Count one recursive step; the result says whether the build may go on. -/
def crBddStep : StateM CrBdd Bool := fun m =>
  let steps := (m.steps + 1) % 2 ^ 64
  let m := { m with
    steps := steps
    overflow := if steps > m.limit * 32 % 2 ^ 64 ∧ m.overflow = 0 then crBddOverSteps
      else m.overflow }
  (m.overflow == 0, m)

/-! ## The recursive operations -/

/-- The frame the recursive operations share: count a step, look the result up, or compute it
and remember it. -/
def crBddMemo (key : ℕ) (compute : CrBdd → StateM CrBdd ℕ) : StateM CrBdd ℕ := do
  if !(← crBddStep) then return 0
  let m ← get
  match crBddLookup m key with
  | some r => return r
  | none =>
    let r ← compute m
    crBddStore key r
    return r

def crBddNotRec : ℕ → ℕ → StateM CrBdd ℕ
  | 0, _ => pure 0
  | fuel + 1, f =>
    if f < 2 then pure (f ^^^ 1)
    else crBddMemo (crBddKey 2 f 0) fun m => do
      let nlo ← crBddNotRec fuel (m.lo f)
      let nhi ← crBddNotRec fuel (m.hi f)
      crBddMk (m.level f) nlo nhi

def crBddNot (f : ℕ) : StateM CrBdd ℕ := fun m => crBddNotRec (m.levels + 1) f m

/-- The cofactors of `f` at level `l`, which is at or above its own. -/
def crBddCofactor (m : CrBdd) (l f : ℕ) : ℕ × ℕ :=
  if m.level f = l then (m.lo f, m.hi f) else (f, f)

def crBddAndRec : ℕ → ℕ → ℕ → StateM CrBdd ℕ
  | 0, _, _ => pure 0
  | fuel + 1, f, g =>
    if f = 0 ∨ g = 0 then pure 0
    else if f = 1 then pure g
    else if g = 1 ∨ f = g then pure f
    else
      let a := if f > g then g else f
      let b := if f > g then f else g
      crBddMemo (crBddKey 1 a b) fun m => do
        let l := if m.level a < m.level b then m.level a else m.level b
        let r0 ← crBddAndRec fuel (crBddCofactor m l a).1 (crBddCofactor m l b).1
        let r1 ← crBddAndRec fuel (crBddCofactor m l a).2 (crBddCofactor m l b).2
        crBddMk l r0 r1

def crBddAnd (f g : ℕ) : StateM CrBdd ℕ := fun m => crBddAndRec (m.levels + 1) f g m

def crBddOr (f g : ℕ) : StateM CrBdd ℕ := do
  -- C leaves the order of the two operands open; each only adds nodes.
  let nf ← crBddNot f
  let ng ← crBddNot g
  let r ← crBddAnd nf ng
  crBddNot r

/-- Existential quantification of the levels `quant` marks; `tag` names that set in the
computed table. -/
def crBddExistsRec (quant : ℕ → Bool) (tag : ℕ) : ℕ → ℕ → StateM CrBdd ℕ
  | 0, _ => pure 0
  | fuel + 1, f =>
    if f < 2 then pure f
    else crBddMemo (crBddKey 3 f tag) fun m => do
      let rlo ← crBddExistsRec quant tag fuel (m.lo f)
      let rhi ← crBddExistsRec quant tag fuel (m.hi f)
      if quant (m.level f) then crBddOr rlo rhi else crBddMk (m.level f) rlo rhi

def crBddExists (f : ℕ) (quant : ℕ → Bool) (tag : ℕ) : StateM CrBdd ℕ :=
  fun m => crBddExistsRec quant tag (m.levels + 1) f m

/-! ## Conversion of a graph -/

/-- Close the marked nodes under the operands of conjunctions, from the last node down. -/
def crAigNeed (g : CrAig) (need : ℕ → Bool) : ℕ → ℕ → Bool
  | 0 => need
  | n + 1 =>
    if n > g.inputs ∧ need n then
      crAigNeed g (update (update need (g.left n / 2) true) (g.right n / 2) true) n
    else crAigNeed g need n

/-- One operand of a conjunction: its node's diagram, negated if the literal is. -/
def crBddOperand (bdd : ℕ → ℕ) (l : ℕ) : StateM CrBdd ℕ :=
  if l % 2 = 1 then crBddNot (bdd (l / 2)) else pure (bdd (l / 2))

/-- The diagram of every needed node, in node order.  An input is its level's variable; the
conjunctions stop at an overflow. -/
def crBddConvert (g : CrAig) (need : ℕ → Bool) : ℕ → StateM CrBdd (ℕ → ℕ)
  | 0 => pure (fun _ => 0)
  | n + 1 => do
    let bdd ← crBddConvert g need n
    if n = 0 ∨ !need n then return bdd
    if n ≤ g.inputs then
      let r ← crBddMk (n - 1) 0 1
      return update bdd n r
    let m ← get
    if m.overflow ≠ 0 then return bdd
    let a ← crBddOperand bdd (g.left n)
    let b ← crBddOperand bdd (g.right n)
    let r ← crBddAnd a b
    return update bdd n r

def crBddFromAig (g : CrAig) (out : ℕ) : StateM CrBdd ℕ := do
  let root := out / 2
  let need := crAigNeed g (fun n => n == root) g.count
  let bdd ← crBddConvert g need g.count
  let result ← crBddOperand bdd out
  let m ← get
  return if m.overflow ≠ 0 then 0 else result

end Lapligence.Constraints
