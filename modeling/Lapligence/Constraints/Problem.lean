import Lapligence.Constraints.BitVectorShifts

/-!
# Constraint problems

The tables of a flat constraint problem (`llg_constraint.h`), its validation
(`cr_validate_problem` in `constraints/solve.c`) and the inputs of a solve session.

An expression is a table of nodes in post-order: every operand index is smaller than the
node's own.  `LLG_CR_NONE` is `none`.  The template operations of problems with units are not
part of `CrOp`: validation rejects them in a flat problem.
-/

namespace Lapligence.Constraints

open WordLists

/-- The node operations of a flat problem, in the order of `llg_constraint.h`. -/
inductive CrOp
  | const | var | state | call | resize | not | neg
  | redand | redor | redxor | rednand | rednor | redxnor | lnot
  | add | sub | mul | div | mod | and | or | xor | xnor
  | shl | shr | ashr | eq | ne | lt | le | gt | ge
  | land | lor | impl | equiv | cond | concat | repl | slice | dslice
  | all | pow | dist | elem
  deriving DecidableEq

/-- `llg_cr_node_t`. -/
structure CrNode where
  op : CrOp
  signFlag : Bool
  bitWidth : ℕ
  a : ℕ := 0
  b : ℕ := 0
  c : ℕ := 0

/-- The width and signedness of a variable, a state leaf or a call result. -/
structure CrType where
  bitWidth : ℕ
  signFlag : Bool

/-- `llg_cr_var_t`. -/
structure CrVar extends CrType where
  domainNode : Option ℕ := none
  cyclic : Bool := false

/-- `llg_cr_call_t`. -/
structure CrCall extends CrType where
  argFirst : ℕ
  argCount : ℕ

/-- `llg_cr_dist_t`. -/
structure CrDist where
  expr : ℕ
  guard : Option ℕ
  itemFirst : ℕ
  itemCount : ℕ

/-- `llg_cr_dist_item_t`; `matched` is the source's `match`. -/
structure CrDistItem where
  matched : ℕ
  lo : ℕ
  hi : ℕ
  weight : Option ℕ
  perRange : Bool
  loSigned : Bool

/-- `llg_cr_table_t`. -/
structure CrTable where
  first : ℕ
  count : ℕ

/-- `llg_cr_problem_t` without units.  Arrays are maps from indices with their sizes. -/
structure CrProblem where
  nodes : ℕ → CrNode
  nodeCount : ℕ
  args : ℕ → ℕ
  argCount : ℕ
  consts : ℕ → BitVec 64
  constCount : ℕ
  vars : ℕ → CrVar
  varCount : ℕ
  blockRoots : ℕ → ℕ
  blockCount : ℕ
  leaves : ℕ → CrType
  leafCount : ℕ
  calls : ℕ → CrCall
  callCount : ℕ
  dists : ℕ → CrDist
  distCount : ℕ
  distItems : ℕ → CrDistItem
  distItemCount : ℕ
  tables : ℕ → CrTable
  tableCount : ℕ
  tableItems : ℕ → Option ℕ
  tableItemCount : ℕ

namespace CrProblem

variable (p : CrProblem)

/-- `args[first .. first + count)`. -/
def argList (first count : ℕ) : List ℕ := (List.range count).map fun i => p.args (first + i)

def itemList (d : CrDist) : List CrDistItem :=
  (List.range d.itemCount).map fun i => p.distItems (d.itemFirst + i)

def tableList (t : CrTable) : List (Option ℕ) :=
  (List.range t.count).map fun i => p.tableItems (t.first + i)

/-! ## Validation -/

/-- The checks of `cr_validate_problem` on node `n`: the message of the first that fails. -/
def nodeFault (n : ℕ) : Option String :=
  let nd := p.nodes n
  if nd.bitWidth = 0 then some "zero-width node"
  else match nd.op with
  | .const =>
    if nd.a + crWords nd.bitWidth > p.constCount then some "constant out of range" else none
  | .var => if nd.a ≥ p.varCount then some "variable out of range" else none
  | .state => if nd.a ≥ p.leafCount then some "state leaf out of range" else none
  | .call =>
    let c := p.calls nd.a
    if nd.a ≥ p.callCount then some "call out of range"
    else if c.argFirst + c.argCount > p.argCount then some "call arguments out of range"
    else if (p.argList c.argFirst c.argCount).any (· ≥ n) then some "call argument after its call"
    else none
  | .concat | .all =>
    if nd.b + nd.c > p.argCount then some "operand list out of range"
    else if (p.argList nd.b nd.c).any (· ≥ n) then some "operand after its node"
    else none
  | .dist =>
    let d := p.dists nd.a
    if nd.a ≥ p.distCount then some "dist out of range"
    else if d.expr ≥ n ∨ d.guard.any (· ≥ n) then some "dist operand after its node"
    else if d.itemFirst + d.itemCount > p.distItemCount then some "dist items out of range"
    else if (p.itemList d).any fun item =>
        item.matched ≥ n || item.lo ≥ n || item.hi ≥ n || item.weight.any (· ≥ n)
      then some "dist item operand after its node"
    else none
  | .elem =>
    let t := p.tables nd.a
    if nd.a ≥ p.tableCount ∨ nd.b ≥ n then some "element operand out of range"
    else if t.first + t.count > p.tableItemCount then some "table out of range"
    else if (p.tableList t).any (·.any (· ≥ n)) then some "table entry after its node"
    else none
  | .repl | .slice | .resize | .not | .neg | .redand | .redor | .redxor | .rednand | .rednor
  | .redxnor | .lnot => if nd.a ≥ n then some "operand after its node" else none
  | .cond =>
    if nd.a ≥ n ∨ nd.b ≥ n ∨ nd.c ≥ n then some "operand after its node" else none
  | _ => if nd.a ≥ n ∨ nd.b ≥ n then some "operand after its node" else none

/-- The checks of `cr_validate_problem` on variable `v`. -/
def varFault (v : ℕ) : Option String :=
  if (p.vars v).bitWidth = 0 then some "zero-width variable"
  else if (p.vars v).cyclic ∧ (p.vars v).bitWidth > 16 then some "randc variable too wide"
  else if (p.vars v).domainNode.any (· ≥ p.nodeCount) then some "domain node out of range"
  else none

/-- `cr_validate_problem` accepts the problem. -/
structure Accepted : Prop where
  nodes : ∀ n < p.nodeCount, p.nodeFault n = none
  blocks : ∀ b < p.blockCount, p.blockRoots b < p.nodeCount
  vars : ∀ v < p.varCount, p.varFault v = none

/-- A problem the solver works on: accepted, with widths and table sizes that are
`uint32_t`. -/
structure Valid : Prop extends Accepted p where
  width_lt : ∀ n, (p.nodes n).bitWidth < 2 ^ 32
  count_lt : ∀ t, (p.tables t).count < 2 ^ 32

end CrProblem

/-- `v` is an array of width `w` with every bit at or above the width cleared, as every
setter of the interface leaves it. -/
def Masked (w : ℕ) (v : Words) : Prop := Holds w v (wordsNat v)

/-- Whether a dist item's weight is zero; the weight node is known. -/
def crDistItemZero (p : CrProblem) (val : ℕ → Words) (item : CrDistItem) : Bool :=
  match item.weight with
  | none => false
  | some x => bvIsZero (val x) (p.nodes x).bitWidth

end Lapligence.Constraints
