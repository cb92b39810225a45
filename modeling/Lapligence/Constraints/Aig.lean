import Lapligence.Framework.GrowingState
import Lapligence.Framework.LinearProbing
import Mathlib.Data.Nat.Bitwise

/-!
# The and-inverter graph

`constraints/aig.c` bit-blasts a component into one structurally hashed and-inverter graph.
A literal is `2 * node + negated`; node `0` is constant false, the nodes `1, …, inputs` are
the component's variable bits and every later node is the conjunction of two literals.

`CrAig` is the graph with its open-addressing hash table and its node bound; `crAnd` is the
hash-consed conjunction.  `CrAig.litValue` gives a literal its meaning under an assignment of
the inputs.
-/

namespace Lapligence.Constraints

open Function LinearProbing

/-- `CR_FALSE`. -/
def crFalse : ℕ := 0

/-- `CR_TRUE`. -/
def crTrue : ℕ := 1

/-- `cr_aig_t`.  The arrays are maps from indices; the table's slots are `0, …, tableCap - 1`
and `0` marks a vacant one. -/
structure CrAig where
  left : ℕ → ℕ
  right : ℕ → ℕ
  count : ℕ
  table : ℕ → ℕ
  tableCap : ℕ
  inputs : ℕ
  limit : ℕ
  overflow : Bool

/-- `UINT32_MAX >> 2`, the hard bound on node numbers. -/
def crNodeMax : ℕ := 2 ^ 30 - 1

def crAigHash (a b : ℕ) : ℕ :=
  (((a * 2 ^ 32) % 2 ^ 64) ^^^ b) * 0x9e3779b97f4a7c15 % 2 ^ 64 / 2 ^ 32

def crAigInit (inputs limit : ℕ) : CrAig where
  left := fun _ => 0
  right := fun _ => 0
  count := inputs + 1
  table := fun _ => 0
  tableCap := 1024
  inputs := inputs
  limit := limit
  overflow := false

/-- Double the table and insert every conjunction again.  Capacities are powers of two, so
the mask `cap - 1` of the source is a remainder. -/
def crAigRehash (g : CrAig) : CrAig :=
  let cap := g.tableCap * 2
  { g with
    table := reinsert cap (fun n => crAigHash (g.left n) (g.right n)) (g.inputs + 1) g.count
    tableCap := cap }

/-- Append the conjunction of `a` and `b`, filed in the vacant `slot`. -/
def crAigAppend (g : CrAig) (slot a b : ℕ) : CrAig :=
  let g := { g with
    left := update g.left g.count a
    right := update g.right g.count b
    table := update g.table slot g.count
    count := g.count + 1 }
  if g.count * 2 > g.tableCap then crAigRehash g else g

/-- The table part of `cr_and`: the node of this conjunction, appended when it is new and
the bounds allow it. -/
def crAigIntern (a b : ℕ) : StateM CrAig ℕ := fun g =>
  match probe g.table g.tableCap (fun n => g.left n == a && g.right n == b) g.tableCap
      (crAigHash a b % g.tableCap) with
  | .found n => (2 * n, g)
  | .vacant slot =>
    if g.count ≥ g.limit ∨ g.count ≥ crNodeMax then (crFalse, { g with overflow := true })
    else (2 * g.count, crAigAppend g slot a b)
  -- The table always has a vacant slot: it is at most half full.
  | .exhausted => (crFalse, g)

def crAnd (a b : ℕ) : StateM CrAig ℕ := fun g =>
  let lo := if a > b then b else a
  let hi := if a > b then a else b
  if lo = crFalse then (crFalse, g)
  else if lo = crTrue then (hi, g)
  else if lo = hi then (lo, g)
  else if lo ^^^ 1 = hi then (crFalse, g)
  else if g.overflow then (crFalse, g)
  else crAigIntern lo hi g

/-! ## Meaning of a literal -/

/-- The value of node `n` when input `i + 1` carries bit `env i`.  Operands precede their
node in every graph the functions above build; the test on the operand only makes the
recursion visibly terminate. -/
def CrAig.nodeValue (g : CrAig) (env : ℕ → Bool) (n : ℕ) : Bool :=
  if n = 0 then false
  else if n ≤ g.inputs then env (n - 1)
  else
    (if g.left n / 2 < n then g.nodeValue env (g.left n / 2) ^^ (g.left n % 2 == 1) else false) &&
    (if g.right n / 2 < n then g.nodeValue env (g.right n / 2) ^^ (g.right n % 2 == 1) else false)
termination_by n

def CrAig.litValue (g : CrAig) (env : ℕ → Bool) (l : ℕ) : Bool :=
  g.nodeValue env (l / 2) ^^ (l % 2 == 1)

@[simp] lemma CrAig.nodeValue_zero (g : CrAig) (env : ℕ → Bool) : g.nodeValue env 0 = false := by
  rw [CrAig.nodeValue, if_pos rfl]

lemma CrAig.nodeValue_input (g : CrAig) (env : ℕ → Bool) {n : ℕ} (h0 : n ≠ 0)
    (hi : n ≤ g.inputs) : g.nodeValue env n = env (n - 1) := by
  rw [CrAig.nodeValue, if_neg h0, if_pos hi]

lemma CrAig.nodeValue_and (g : CrAig) (env : ℕ → Bool) {n : ℕ} (hi : g.inputs < n)
    (hops : g.left n / 2 < n ∧ g.right n / 2 < n) :
    g.nodeValue env n = (g.litValue env (g.left n) && g.litValue env (g.right n)) := by
  rw [CrAig.nodeValue, if_neg (by omega), if_neg (by omega), if_pos hops.1, if_pos hops.2]
  rfl

end Lapligence.Constraints
