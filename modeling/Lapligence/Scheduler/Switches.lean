import Lapligence.Framework.Explore
import Mathlib.Algebra.Ring.Nat

/-!
# Bidirectional pass switches

`scheduler/switches.c` resolves a network of nodes joined by `tran`, `tranif` and their
resistive kinds.  A node carries four levels: the strongest *known* and the strongest
*possible* level of each value.  One solve collects the component of a dirty node, starts
every node from its own drivers, and spreads the levels from supply down to small through one
queue per level.

This file models the network, the own levels of a node, the wired groups and the solve.  The
equations the levels solve are in `Scheduler/SwitchLevels.lean`, the proof that the solve
reaches their solution in `Scheduler/SwitchSolve.lean`.

A level is an integer: `-1` for none, `1` (small) to `7` (supply) otherwise.
-/

namespace Lapligence.Scheduler

open Function

/-! ## Networks -/

/-- `LLG_RESOLVE_*`: the resolution function of a net. -/
inductive Resolution
  | wire | wand | wor | tri0 | tri1 | supply0 | supply1
  deriving DecidableEq, Repr

/-- A bit of a four-state value, as `llg_sv4_state` numbers them. -/
inductive BitState
  | zero | one | x | z
  deriving DecidableEq, Repr

def strengthPull : ℤ := 5
def strengthStrong : ℤ := 6
def strengthSupply : ℤ := 7

/-- One driver of a net as it drives a node's bit; `0` is `LLG_STRENGTH_HIGHZ`. -/
structure NetDriver where
  value : BitState
  strength0 : Fin 8
  strength1 : Fin 8

/-- What a node reads of its net: the resolution, the forced value of its bit, the drivers
that cover the bit, and whether some driver of the bit has not evaluated yet. -/
structure SwitchNode where
  resolution : Resolution
  forced : Option BitState
  drivers : List NetDriver
  startPending : Bool

/-- `LLG_SWITCH_OFF`, `LLG_SWITCH_ON`, `LLG_SWITCH_UNKNOWN`. -/
inductive SwitchState
  | off | on | unknown
  deriving DecidableEq, Repr

structure Switch where
  a : ℕ
  b : ℕ
  resistive : Bool
  controlled : Bool

/-- The static network and the states of its switches.  `adj n` is the row of node `n` in the
adjacency, of which the first `nActive n` switches are not off. -/
structure SwitchNetwork where
  nNodes : ℕ
  nodes : ℕ → SwitchNode
  nSwitches : ℕ
  switches : ℕ → Switch
  state : ℕ → SwitchState
  adj : ℕ → List ℕ
  nActive : ℕ → ℕ

def SwitchNetwork.active (N : SwitchNetwork) (n : ℕ) : List ℕ := (N.adj n).take (N.nActive n)

/-- A forced bit is a fixed source. -/
def SwitchNetwork.fixed (N : SwitchNetwork) (n : ℕ) : Bool := (N.nodes n).forced.isSome

def switchOther (N : SwitchNetwork) (s n : ℕ) : ℕ :=
  if (N.switches s).a = n then (N.switches s).b else (N.switches s).a

/-! ## Levels -/

/-- One of the four levels of a node: `K0`, `K1`, `P0`, `P1`. -/
structure Entry where
  possible : Bool
  side : Bool
  deriving DecidableEq, Repr

abbrev Entry.known (side : Bool) : Entry := ⟨false, side⟩
abbrev Entry.maybe (side : Bool) : Entry := ⟨true, side⟩

/-- Table 28-8 for resistive devices; otherwise supply becomes strong. -/
def switchReduce (level : ℤ) (resistive : Bool) : ℤ :=
  if resistive then [0, 1, 1, 2, 2, 3, 5, 5].getD level.toNat 0
  else if level = strengthSupply then strengthStrong else level

def switchRaise (levels : Entry → ℤ) (e : Entry) (level : ℤ) : Entry → ℤ :=
  if level > levels e then update levels e level else levels

/-- Raise the known and the possible level of a value. -/
def switchRaiseBoth (levels : Entry → ℤ) (side : Bool) (level : ℤ) : Entry → ℤ :=
  switchRaise (switchRaise levels (.known side) level) (.maybe side) level

/-- The levels of a source of value `side` alone. -/
def sourceLevels (side : Bool) (level : ℤ) : Entry → ℤ :=
  fun e => if e.side = side then level else -1

def switchDriverLevels (levels : Entry → ℤ) (d : NetDriver) : Entry → ℤ :=
  let s0 : ℤ := d.strength0.val
  let s1 : ℤ := d.strength1.val
  match d.value with
  | .zero => if s0 ≠ 0 then switchRaiseBoth levels false s0 else levels
  | .one => if s1 ≠ 0 then switchRaiseBoth levels true s1 else levels
  | .x =>
    let levels := if s0 ≠ 0 then switchRaise levels (.maybe false) s0 else levels
    if s1 ≠ 0 then switchRaise levels (.maybe true) s1 else levels
  | .z => levels

/-- The node's own resolution input: the implicit pull or supply, its drivers, and StX while
a driver has not evaluated yet.  A forced bit is a strong source of its forced value. -/
def switchOwnLevels (node : SwitchNode) : Entry → ℤ :=
  match node.forced with
  | some .zero => sourceLevels false strengthStrong
  | some .one => sourceLevels true strengthStrong
  | some .x => fun e => if e.possible then strengthStrong else -1
  | some .z => fun _ => -1
  | none =>
    let levels := match node.resolution with
      | .tri0 => sourceLevels false strengthPull
      | .tri1 => sourceLevels true strengthPull
      | .supply0 => sourceLevels false strengthSupply
      | .supply1 => sourceLevels true strengthSupply
      | _ => fun _ => -1
    let levels := node.drivers.foldl switchDriverLevels levels
    if node.startPending then
      switchRaise (switchRaise levels (.maybe false) strengthStrong) (.maybe true) strengthStrong
    else levels

def SwitchNetwork.own (N : SwitchNetwork) (n : ℕ) : Entry → ℤ := switchOwnLevels (N.nodes n)

/-! ## Wired groups -/

/-- The nodes an uncontrolled switch joins to `n`. -/
def wiredNeighbours (N : SwitchNetwork) (n : ℕ) : List ℕ :=
  ((N.adj n).filter fun s => !(N.switches s).controlled).map fun s => switchOther N s n

/-- The value a wired net resolves equal strengths to. -/
def wiredValue : Resolution → Option Bool
  | .wand => some false
  | .wor => some true
  | _ => none

/-- The loop over the roots.  `dominant n = none` is the `-2` of the source, a node no group
has reached yet; the inner option is `-1`, `0` or `1`. -/
def switchWiredFrom (N : SwitchNetwork) : ℕ → (ℕ → Option (Option Bool))
  | 0 => fun _ => none
  | root + 1 =>
    let dominant := switchWiredFrom N root
    if (dominant root).isSome then dominant
    else
      let group := (explore (wiredNeighbours N) N.nNodes 0
        ⟨update (fun n => (dominant n).isSome) root true, [root]⟩).found
      -- Every member of the group is asked for its wired value; the last answer stays.
      let wired := group.foldl (fun wired n => (wiredValue (N.nodes n).resolution).or wired) none
      fun n => if n ∈ group then some wired else dominant n

/-- The value node `n` resolves equal strengths to, if its group is wired. -/
def switchWiredGroups (N : SwitchNetwork) (n : ℕ) : Option Bool :=
  (switchWiredFrom N N.nNodes n).join

/-! ## The solve -/

structure SwitchItem where
  node : ℕ
  entry : Entry
  deferred : Bool
  deriving DecidableEq, Repr

/-- The levels and queues of one solve.  `aborted` is the fatal exit of `switch_push`. -/
structure SwitchQueues where
  level : ℕ → Entry → ℤ
  bucket : ℤ → List SwitchItem
  nItems : ℕ
  aborted : Bool

def switchPush (N : SwitchNetwork) (node : ℕ) (e : Entry) (level : ℤ) (q : SwitchQueues) :
    SwitchQueues :=
  if q.nItems ≥ N.nNodes * 8 then { q with aborted := true }
  else { q with
    bucket := update q.bucket level (q.bucket level ++ [⟨node, e, false⟩])
    nItems := q.nItems + 1 }

/-- Offer `level` of value `side`, known or possible, to `node`. -/
def switchOffer (N : SwitchNetwork) (node : ℕ) (side known : Bool) (level : ℤ)
    (q : SwitchQueues) : SwitchQueues :=
  if N.fixed node = true ∨ level < 1 then q
  else if known then
    if level ≤ q.level node (.known side) then q
    else
      switchPush N node (.known side) level { q with
        level := update q.level node
          (switchRaise (update (q.level node) (.known side) level) (.maybe side) level) }
  else
    if level ≤ q.level node (.maybe side) then q
    else
      switchPush N node (.maybe side) level { q with
        level := update q.level node (update (q.level node) (.maybe side) level) }

/-- Offer a level that leaves `node` to every neighbour across a switch that is not off. -/
def switchSpread (N : SwitchNetwork) (node : ℕ) (e : Entry) (level : ℤ) (q : SwitchQueues) :
    SwitchQueues :=
  (N.active node).foldl (fun q s =>
    switchOffer N (switchOther N s node) e.side (!e.possible && N.state s == .on)
      (switchReduce level (N.switches s).resistive) q) q

/-- The queue of one level.  A dominated value of a wired node waits in `deferred` until the
queue is empty, then is taken again.  `none` is running out of fuel. -/
def switchLevel (N : SwitchNetwork) (dominant : ℕ → Option Bool) (level : ℤ) :
    ℕ → List SwitchItem → SwitchQueues → Option SwitchQueues
  | 0, _, _ => none
  | fuel + 1, deferred, q =>
    match q.bucket level with
    | [] =>
      if deferred = [] then some q
      else switchLevel N dominant level fuel [] { q with bucket := update q.bucket level deferred }
    | item :: rest =>
      let q := { q with bucket := update q.bucket level rest }
      -- Stale: the entry rose after this item was queued.
      if q.level item.node item.entry ≠ level then switchLevel N dominant level fuel deferred q
      -- Blocked: a stronger known opposite value wins at this node.
      else if q.level item.node (.known !item.entry.side) > level then
        switchLevel N dominant level fuel deferred q
      else if dominant item.node = some (!item.entry.side) ∧ !item.deferred then
        switchLevel N dominant level fuel (deferred ++ [{ item with deferred := true }]) q
      -- The wired function: an equal known dominant value wins.
      else if dominant item.node = some (!item.entry.side) ∧
          q.level item.node (.known !item.entry.side) ≥ level then
        switchLevel N dominant level fuel deferred q
      else
        switchLevel N dominant level fuel deferred (switchSpread N item.node item.entry level q)

/-- The levels from `level` down to `1`. -/
def switchLevels (N : SwitchNetwork) (dominant : ℕ → Option Bool) :
    ℕ → SwitchQueues → Option SwitchQueues
  | 0, q => some q
  | level + 1, q => do
    let q ← switchLevel N dominant (level + 1 : ℕ) (N.nNodes * 32 + 1) [] q
    switchLevels N dominant level q

/-- Queue the own levels of a node. -/
def switchStart (N : SwitchNetwork) (q : SwitchQueues) (node : ℕ) : SwitchQueues :=
  let q := { q with level := update q.level node (N.own node) }
  [Entry.known false, .known true, .maybe false, .maybe true].foldl (fun q e =>
    if N.own node e ≥ 1 then switchPush N node e (N.own node e) q else q) q

/-- `llg_net_strength_code`: a range of signed strengths, packed. -/
def netStrengthCode (lo hi : ℤ) : ℕ := (hi + 7).toNat <<< 4 ||| (lo + 7).toNat

/-- `llg_net_strength_hull`: the range of outcomes of the four levels. -/
def netStrengthHull (mode : Resolution) (k0 k1 p0 p1 : ℤ) : ℕ :=
  let hi := if p1 ≥ 0 ∧ (if mode = .wand then p1 > k0 else p1 ≥ k0) then p1
    else if k0 ≥ 0 then -k0 else 0
  let lo := if p0 ≥ 0 ∧ (if mode = .wor then p0 > k1 else p0 ≥ k1) then -p0
    else if k1 ≥ 0 then k1 else 0
  netStrengthCode lo hi

/-- The value a strength range stands for. -/
def netCodeValue (code : ℕ) : BitState :=
  let lo : ℤ := (code &&& 15 : ℕ) - 7
  let hi : ℤ := (code >>> 4 : ℕ) - 7
  if lo = 0 ∧ hi = 0 then .z else if hi < 0 then .zero else if lo > 0 then .one else .x

/-- The part of `g_sw` that a solve reads and writes. -/
structure SwitchMemory where
  epoch : ℕ
  mark : ℕ → ℕ
  level : ℕ → Entry → ℤ
  value : ℕ → BitState
  code : ℕ → ℕ

/-- Start a new epoch; when the counter wraps, the marks are cleared. -/
def switchEpoch (g : SwitchMemory) : SwitchMemory :=
  let epoch := (g.epoch + 1) % 2 ^ 32
  if epoch = 0 then { g with mark := fun _ => 0, epoch := 1 } else { g with epoch := epoch }

/-- The nodes reachable from `start` across switches that are not off. -/
def switchComponent (N : SwitchNetwork) (start : ℕ) (g : SwitchMemory) : List ℕ :=
  (explore (fun n => (N.active n).map fun s => switchOther N s n) N.nNodes 0
    ⟨update (fun n => g.mark n == g.epoch) start true, [start]⟩).found

/-- How a node resolves its levels. -/
def switchMode (N : SwitchNetwork) (dominant : ℕ → Option Bool) (n : ℕ) : Resolution :=
  match dominant n with
  | some false => .wand
  | some true => .wor
  | none => (N.nodes n).resolution

def switchCode (N : SwitchNetwork) (dominant : ℕ → Option Bool) (level : ℕ → Entry → ℤ)
    (n : ℕ) : ℕ :=
  netStrengthHull (switchMode N dominant n) (level n (.known false)) (level n (.known true))
    (level n (.maybe false)) (level n (.maybe true))

/-- What one solve leaves behind. -/
structure SolveResult where
  component : List ℕ
  memory : SwitchMemory
  aborted : Bool

/-- The last loop of a solve: record the result of every node that is not fixed. -/
def switchRecord (N : SwitchNetwork) (g : SwitchMemory) (component : List ℕ) (q : SwitchQueues) :
    SolveResult where
  component := component
  aborted := q.aborted
  memory := { g with
    mark := fun n => if n ∈ component then g.epoch else g.mark n
    level := q.level
    code := fun n => if n ∈ component ∧ N.fixed n = false then
        switchCode N (switchWiredGroups N) q.level n
      else g.code n
    value := fun n => if n ∈ component ∧ N.fixed n = false then
        netCodeValue (switchCode N (switchWiredGroups N) q.level n)
      else g.value n }

/-- Solve the component of `start`. -/
def switchSolve (N : SwitchNetwork) (start : ℕ) (g : SwitchMemory) : Option SolveResult := do
  let g := switchEpoch g
  let component := switchComponent N start g
  let q := component.foldl (switchStart N) ⟨g.level, fun _ => [], 0, false⟩
  let q ← switchLevels N (switchWiredGroups N) 7 q
  return switchRecord N g component q

end Lapligence.Scheduler
