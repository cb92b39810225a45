import Lapligence.Framework.Runs
import Mathlib.Algebra.BigOperators.Group.List.Basic
import Mathlib.Algebra.Ring.Nat
import Mathlib.Data.List.Nodup

/-!
# Semaphores

The semaphores of a simulation (`llg_semaphore_*`): a count of available keys and a queue of the
requests that wait for keys.  A `put` adds its keys and then passes once over the queue, granting
every request that fits the keys left at its turn; a `get` is granted at once or queued; a kill
takes the request of the killed process out of its queue.

The model keeps all semaphores and processes of a run, since the queue record of a waiting process
is found through the process (`wait`), and the pass over a queue skips records that their process
no longer refers to.

## Contents

* the model: `llgSemaphorePut`, `llgArmSemaphoreGet`, `llgSemaphoreTryGet` and
  `SemaphoreState.llgKillProc`;
* `serve`, the grants a pass is meant to make, and `semaphoreWakeAvailable_eq`;
* `semaphoreStep_move`, what a call can do.
-/

namespace Lapligence.Scheduler

open Function List

/-! ## The model -/

/-- `UINT64_MAX`. -/
def uint64Max : ℕ := 2 ^ 64 - 1

/-- A request for keys, as it stands in a queue (`llg_semaphore_wait_t`).  `node` stands for the
address of the record; it is the number of the request among all requests of the run. -/
structure SemaphoreWait where
  node : ℕ
  proc : ℕ
  keys : ℕ
deriving DecidableEq, Repr

/-- `llg_semaphore_t`: the list runs from `wait_head` to `wait_tail`. -/
structure Semaphore where
  available : ℕ
  waiters : List SemaphoreWait

/-- The payload of a process that waits in a `get` (`llg_wait_semaphore_payload_t`). -/
structure SemaphorePayload where
  semaphore : ℕ
  waiter : ℕ
deriving DecidableEq, Repr

/-- The semaphores and processes of a run.  `wait proc` is the payload of a process whose wait has
kind `W_SEMAPHORE`, `requests` the number of requests made so far. -/
structure SemaphoreState where
  semaphores : ℕ → Semaphore
  wait : ℕ → Option SemaphorePayload
  killed : ℕ → Bool
  requests : ℕ
  finish : Bool

/-- What a call causes: keys added, a request granted, queued or refused (`try_get` returns 0), or
an error, which ends the simulation. -/
inductive SemaphoreEvent
  | added (semaphore keys : ℕ)
  | granted (semaphore : ℕ) (request : SemaphoreWait)
  | queued (semaphore : ℕ) (request : SemaphoreWait)
  | refused (semaphore : ℕ) (request : SemaphoreWait)
  | error (message : String)
deriving DecidableEq, Repr

/-- `region_can_mutate`: `readOnly` names the current region when it is a read-only one. -/
def regionCanMutate (readOnly : Option String) (action : String) : Except String Unit :=
  match readOnly with
  | some region =>
    .error ("llg: illegal " ++ action ++ " in read-only or completed " ++ region ++ " region")
  | none => .ok ()

/-- `semaphore_valid`, for a handle that may be null. -/
def semaphoreValid (semaphore : Option ℕ) (action : String) : Except String ℕ :=
  match semaphore with
  | some semaphore => .ok semaphore
  | none => .error ("llg: semaphore " ++ action ++ " requires a live semaphore handle")

/-- `semaphore_key_count`: `keyCount` is the argument as a signed 64-bit index, when it is known
and fits. -/
def semaphoreKeyCount (keyCount : Option ℤ) : Except String ℕ :=
  match keyCount with
  | some count =>
    if count < 0 then
      .error "llg: semaphore key count must be a known nonnegative integral value"
    else .ok count.toNat
  | none => .error "llg: semaphore key count must be a known nonnegative integral value"

/-- What a pass over a queue leaves and grants. -/
structure SemaphorePass where
  available : ℕ
  waiters : List SemaphoreWait
  wait : ℕ → Option SemaphorePayload
  granted : List SemaphoreWait

/-- `semaphore_wake_available`: the loop from `node` on.  `wake_proc` ends the wait of a granted
process. -/
def semaphoreWakeAvailable :
    List SemaphoreWait → ℕ → (ℕ → Option SemaphorePayload) → SemaphorePass
  | [], available, wait => ⟨available, [], wait, []⟩
  | node :: next, available, wait =>
    if 0 < available then
      let stale := (wait node.proc).map SemaphorePayload.waiter ≠ some node.node
      if ¬ stale ∧ available < node.keys then
        let pass := semaphoreWakeAvailable next available wait
        { pass with waiters := node :: pass.waiters }
      else if stale then semaphoreWakeAvailable next available wait
      else
        let pass := semaphoreWakeAvailable next (available - node.keys)
          (update wait node.proc none)
        { pass with granted := node :: pass.granted }
    else ⟨available, node :: next, wait, []⟩

/-- One semaphore replaced. -/
def SemaphoreState.set (s : SemaphoreState) (semaphore : ℕ) (value : Semaphore) : SemaphoreState :=
  { s with semaphores := update s.semaphores semaphore value }

/-- The keys of a `put` are added and given to the requests that fit. -/
def SemaphoreState.add (s : SemaphoreState) (semaphore keys : ℕ) :
    SemaphoreState × List SemaphoreEvent :=
  let available := ((s.semaphores semaphore).available + keys) % 2 ^ 64
  let pass := semaphoreWakeAvailable (s.semaphores semaphore).waiters available s.wait
  ({ s.set semaphore ⟨pass.available, pass.waiters⟩ with wait := pass.wait },
    .added semaphore keys :: pass.granted.map (.granted semaphore))

/-- `llg_semaphore_put`. -/
def llgSemaphorePut (s : SemaphoreState) (readOnly : Option String) (semaphore : Option ℕ)
    (keyCount : Option ℤ) : Except String (SemaphoreState × List SemaphoreEvent) := do
  regionCanMutate readOnly "semaphore put"
  let semaphore ← semaphoreValid semaphore "put"
  let keys ← semaphoreKeyCount keyCount
  if keys = 0 then return (s, [])
  if uint64Max - (s.semaphores semaphore).available < keys then
    throw "llg: semaphore key count overflow in put"
  return s.add semaphore keys

/-- The request of a call: the next number, with the process and its count. -/
def SemaphoreState.request (s : SemaphoreState) (proc keys : ℕ) : SemaphoreWait :=
  ⟨s.requests, proc, keys⟩

/-- A request takes its keys. -/
def SemaphoreState.take (s : SemaphoreState) (semaphore proc keys : ℕ) :
    SemaphoreState × List SemaphoreEvent :=
  ({ s.set semaphore ⟨(s.semaphores semaphore).available - keys, (s.semaphores semaphore).waiters⟩
      with requests := s.requests + 1 }, [.granted semaphore (s.request proc keys)])

/-- A request is queued and its process waits. -/
def SemaphoreState.enqueue (s : SemaphoreState) (semaphore proc keys : ℕ) :
    SemaphoreState × List SemaphoreEvent :=
  ({ s.set semaphore ⟨(s.semaphores semaphore).available,
        (s.semaphores semaphore).waiters ++ [s.request proc keys]⟩ with
      wait := update s.wait proc (some ⟨semaphore, s.requests⟩)
      requests := s.requests + 1 }, [.queued semaphore (s.request proc keys)])

/-- `llg_arm_semaphore_get`. -/
def llgArmSemaphoreGet (s : SemaphoreState) (readOnly : Option String) (self semaphore : Option ℕ)
    (keyCount : Option ℤ) : Except String (SemaphoreState × List SemaphoreEvent) := do
  regionCanMutate readOnly "semaphore get"
  let semaphore ← semaphoreValid semaphore "get"
  match self with
  | none => throw "llg: semaphore get requested outside a simulation process"
  | some proc =>
    let keys ← semaphoreKeyCount keyCount
    if keys = 0 then return (s, [])
    if keys ≤ (s.semaphores semaphore).available then return s.take semaphore proc keys
    return s.enqueue semaphore proc keys

/-- `llg_semaphore_try_get`, called by process `proc`. -/
def llgSemaphoreTryGet (s : SemaphoreState) (readOnly : Option String) (proc : ℕ)
    (semaphore : Option ℕ) (keyCount : Option ℤ) :
    Except String (SemaphoreState × List SemaphoreEvent) := do
  regionCanMutate readOnly "semaphore try_get"
  let semaphore ← semaphoreValid semaphore "try_get"
  let keys ← semaphoreKeyCount keyCount
  if keys = 0 then return (s, [])
  if (s.semaphores semaphore).available < keys then
    return ({ s with requests := s.requests + 1 }, [.refused semaphore (s.request proc keys)])
  return s.take semaphore proc keys

/-- `semaphore_waiter_unlink`, on the queue of the payload's semaphore. -/
def semaphoreWaiterUnlink (s : SemaphoreState) (payload : SemaphorePayload) : SemaphoreState :=
  s.set payload.semaphore ⟨(s.semaphores payload.semaphore).available,
    (s.semaphores payload.semaphore).waiters.eraseP fun w => w.node = payload.waiter⟩

/-- `llg_kill_proc`, as far as semaphores are concerned. -/
def SemaphoreState.llgKillProc (s : SemaphoreState) (proc : ℕ) : SemaphoreState :=
  if s.killed proc then s
  else
    let s := { s with killed := update s.killed proc true }
    match s.wait proc with
    | none => s
    | some payload =>
      { semaphoreWaiterUnlink s payload with wait := update s.wait proc none }

/-- The calls, with the region they are made in, and the kill of a process. -/
inductive SemaphoreCall
  | put (readOnly : Option String) (semaphore : Option ℕ) (keyCount : Option ℤ)
  | get (readOnly : Option String) (self semaphore : Option ℕ) (keyCount : Option ℤ)
  | tryGet (readOnly : Option String) (proc : ℕ) (semaphore : Option ℕ) (keyCount : Option ℤ)
  | kill (proc : ℕ)

/-- An error is reported and ends the simulation; nothing else changes. -/
def SemaphoreState.reply (s : SemaphoreState)
    (result : Except String (SemaphoreState × List SemaphoreEvent)) :
    SemaphoreState × List SemaphoreEvent :=
  match result with
  | .ok result => result
  | .error message => ({ s with finish := true }, [.error message])

/-- One call. -/
def semaphoreStep (s : SemaphoreState) : SemaphoreCall → SemaphoreState × List SemaphoreEvent
  | .put readOnly semaphore keyCount => s.reply (llgSemaphorePut s readOnly semaphore keyCount)
  | .get readOnly self semaphore keyCount =>
    s.reply (llgArmSemaphoreGet s readOnly self semaphore keyCount)
  | .tryGet readOnly proc semaphore keyCount =>
    s.reply (llgSemaphoreTryGet s readOnly proc semaphore keyCount)
  | .kill proc => (s.llgKillProc proc, [])

/-- A process that waits or was killed does not run, so it makes no blocking call. -/
def SemaphoreState.Can (s : SemaphoreState) : SemaphoreCall → Prop
  | .get _ (some proc) _ _ => s.wait proc = none ∧ s.killed proc = false
  | _ => True

/-- The semaphores of a simulation. -/
def semaphoreMachine : Machine SemaphoreState SemaphoreCall SemaphoreEvent where
  can := SemaphoreState.Can
  step := semaphoreStep

/-- Semaphores with their initial keys (`llg_semaphore_new`), before any call. -/
def semaphoreStart (initial : ℕ → ℕ) : SemaphoreState where
  semaphores semaphore := ⟨initial semaphore, []⟩
  wait _ := none
  killed _ := false
  requests := 0
  finish := false

/-! ## The grants of a pass -/

/-- The requests that a pass in arrival order grants, those it leaves, and the keys it leaves: each
request in turn takes its keys if they are there. -/
def serve : ℕ → List SemaphoreWait → List SemaphoreWait × List SemaphoreWait × ℕ
  | available, [] => ([], [], available)
  | available, w :: ws =>
    if w.keys ≤ available then
      let (granted, left, rest) := serve (available - w.keys) ws
      (w :: granted, left, rest)
    else
      let (granted, left, rest) := serve available ws
      (granted, w :: left, rest)

/-- The keys of some requests. -/
def keysOf (ws : List SemaphoreWait) : ℕ :=
  (ws.map SemaphoreWait.keys).sum

section Serve

variable {available : ℕ} {w : SemaphoreWait} {ws : List SemaphoreWait}

lemma serve_cons_of_le (h : w.keys ≤ available) : serve available (w :: ws) =
    (w :: (serve (available - w.keys) ws).1, (serve (available - w.keys) ws).2) := by
  simp [serve, h]

lemma serve_cons_of_lt (h : available < w.keys) : serve available (w :: ws) =
    ((serve available ws).1, w :: (serve available ws).2.1, (serve available ws).2.2) := by
  simp [serve, Nat.not_le.2 h]

/-- Keys granted and keys left are the keys there were. -/
lemma keysOf_serve (available : ℕ) (ws : List SemaphoreWait) :
    keysOf (serve available ws).1 + (serve available ws).2.2 = available := by
  induction ws generalizing available with
  | nil => simp [serve, keysOf]
  | cons w ws ih =>
    rcases lt_or_ge available w.keys with h | h
    · rw [serve_cons_of_lt h]
      exact ih available
    · rw [serve_cons_of_le h]
      have := ih (available - w.keys)
      simp only [keysOf, map_cons, sum_cons] at this ⊢
      omega

/-- A request that is left asks for more than the keys left. -/
lemma lt_keys_of_mem_serve_left {available : ℕ} {ws : List SemaphoreWait}
    (h : w ∈ (serve available ws).2.1) : (serve available ws).2.2 < w.keys := by
  induction ws generalizing available with
  | nil => simp [serve] at h
  | cons v ws ih =>
    rcases lt_or_ge available v.keys with hv | hv
    · rw [serve_cons_of_lt hv] at h ⊢
      rcases mem_cons.1 h with rfl | h
      · -- keys only get fewer during the pass
        have := keysOf_serve available ws
        dsimp only
        omega
      · exact ih h
    · rw [serve_cons_of_le hv] at h ⊢
      exact ih h

/-- The queue is split into the requests granted and those left. -/
lemma serve_perm (available : ℕ) (ws : List SemaphoreWait) :
    ((serve available ws).1 ++ (serve available ws).2.1).Perm ws := by
  induction ws generalizing available with
  | nil => simp [serve]
  | cons w ws ih =>
    rcases lt_or_ge available w.keys with h | h
    · rw [serve_cons_of_lt h]
      exact perm_middle.trans ((ih available).cons w)
    · rw [serve_cons_of_le h]
      exact (ih (available - w.keys)).cons w

/-- The requests left keep their order. -/
lemma serve_left_sublist (available : ℕ) (ws : List SemaphoreWait) :
    (serve available ws).2.1.Sublist ws := by
  induction ws generalizing available with
  | nil => simp [serve]
  | cons w ws ih =>
    rcases lt_or_ge available w.keys with h | h
    · rw [serve_cons_of_lt h]
      exact (ih available).cons_cons w
    · rw [serve_cons_of_le h]
      exact (ih (available - w.keys)).cons w

/-- Without keys nothing is granted. -/
lemma serve_zero (h : ∀ w ∈ ws, 0 < w.keys) : serve 0 ws = ([], ws, 0) := by
  induction ws with
  | nil => rfl
  | cons w ws ih =>
    rw [serve_cons_of_lt (h w mem_cons_self), ih fun v hv => h v (mem_cons_of_mem w hv)]

/-- The waits of the granted processes end. -/
def endWaits (wait : ℕ → Option SemaphorePayload) (granted : List SemaphoreWait) (proc : ℕ) :
    Option SemaphorePayload :=
  if proc ∈ granted.map SemaphoreWait.proc then none else wait proc

/-- On a queue of requests that their processes still wait for, the pass of the code grants what
`serve` does.  In particular its early exit at zero keys skips no grant. -/
lemma semaphoreWakeAvailable_eq (available : ℕ) (wait : ℕ → Option SemaphorePayload)
    (hlinked : ∀ w ∈ ws, (wait w.proc).map SemaphorePayload.waiter = some w.node)
    (hprocs : (ws.map SemaphoreWait.proc).Nodup) (hpos : ∀ w ∈ ws, 0 < w.keys) :
    semaphoreWakeAvailable ws available wait =
      ⟨(serve available ws).2.2, (serve available ws).2.1,
        endWaits wait (serve available ws).1, (serve available ws).1⟩ := by
  induction ws generalizing available wait with
  | nil =>
    have hwait : endWaits wait [] = wait := funext fun proc => by simp [endWaits]
    simp [semaphoreWakeAvailable, serve, hwait]
  | cons w ws ih =>
    have hw := hlinked w mem_cons_self
    have hws : ∀ v ∈ ws, (wait v.proc).map SemaphorePayload.waiter = some v.node :=
      fun v hv => hlinked v (mem_cons_of_mem w hv)
    have hposs : ∀ v ∈ ws, 0 < v.keys := fun v hv => hpos v (mem_cons_of_mem w hv)
    obtain ⟨hnot, hnodup⟩ := nodup_cons.1 hprocs
    rcases Nat.eq_zero_or_pos available with rfl | h0
    · have hwait : endWaits wait [] = wait := funext fun proc => by simp [endWaits]
      rw [serve_zero hpos, hwait]
      rfl
    rcases lt_or_ge available w.keys with hlt | hle
    · have hstep : semaphoreWakeAvailable (w :: ws) available wait =
          { semaphoreWakeAvailable ws available wait with
            waiters := w :: (semaphoreWakeAvailable ws available wait).waiters } := by
        simp [semaphoreWakeAvailable, h0, hw, hlt]
      rw [hstep, ih _ _ hws hnodup hposs, serve_cons_of_lt hlt]
    · have hstep : semaphoreWakeAvailable (w :: ws) available wait =
          { semaphoreWakeAvailable ws (available - w.keys) (update wait w.proc none) with
            granted := w :: (semaphoreWakeAvailable ws (available - w.keys)
              (update wait w.proc none)).granted } := by
        simp [semaphoreWakeAvailable, h0, hw, Nat.not_lt.2 hle]
      -- the waits of the other processes of the queue are untouched by this grant
      have hrest : ∀ v ∈ ws, (update wait w.proc none v.proc).map
          SemaphorePayload.waiter = some v.node := by
        intro v hv
        have hne : v.proc ≠ w.proc := fun he => hnot (he ▸ mem_map_of_mem hv)
        rw [update_of_ne hne]
        exact hws v hv
      have hwaits : endWaits (update wait w.proc none) (serve (available - w.keys) ws).1 =
          endWaits wait (w :: (serve (available - w.keys) ws).1) := by
        funext proc
        simp only [endWaits, map_cons, mem_cons, update_apply]
        split_ifs <;> tauto
      rw [hstep, ih _ _ hrest hnodup hposs, serve_cons_of_le hle, hwaits]

end Serve

/-! ## What a step can do -/

/-- The keys that a call asks to put into a semaphore. -/
def SemaphoreCall.putKeys : SemaphoreCall → ℕ → ℕ
  | .put _ (some target) (some count), semaphore => if target = semaphore then count.toNat else 0
  | _, _ => 0

/-- The outcomes of a call that asks to put `puts` into each semaphore. -/
inductive SemaphoreMove (s : SemaphoreState) :
    (ℕ → ℕ) → SemaphoreState × List SemaphoreEvent → Prop
  | error (puts : ℕ → ℕ) (message : String) :
      SemaphoreMove s puts ({ s with finish := true }, [.error message])
  | nothing : SemaphoreMove s (fun _ => 0) (s, [])
  | add (semaphore keys : ℕ) : 0 < keys →
      (s.semaphores semaphore).available + keys ≤ uint64Max →
      SemaphoreMove s (fun other => if semaphore = other then keys else 0) (s.add semaphore keys)
  | take (semaphore proc keys : ℕ) : keys ≤ (s.semaphores semaphore).available →
      SemaphoreMove s (fun _ => 0) (s.take semaphore proc keys)
  | enqueue (semaphore proc keys : ℕ) : (s.semaphores semaphore).available < keys →
      s.wait proc = none → s.killed proc = false →
      SemaphoreMove s (fun _ => 0) (s.enqueue semaphore proc keys)
  | refuse (semaphore proc keys : ℕ) :
      SemaphoreMove s (fun _ => 0)
        ({ s with requests := s.requests + 1 }, [.refused semaphore (s.request proc keys)])
  | kill (proc : ℕ) : SemaphoreMove s (fun _ => 0) (s.llgKillProc proc, [])

/-- The key count is a number or an error. -/
lemma semaphoreKeyCount_cases (keyCount : Option ℤ) :
    (∃ message, semaphoreKeyCount keyCount = .error message) ∨
      ∃ count : ℤ, keyCount = some count ∧ semaphoreKeyCount keyCount = .ok count.toNat := by
  rcases keyCount with _ | count
  · exact .inl ⟨_, rfl⟩
  · by_cases hneg : count < 0
    · exact .inl ⟨_, by simp [semaphoreKeyCount, hneg]; rfl⟩
    · exact .inr ⟨count, rfl, by simp [semaphoreKeyCount, hneg]⟩

section Steps

variable {s : SemaphoreState} {call : SemaphoreCall}

lemma semaphorePut_move (hmax : ∀ semaphore, (s.semaphores semaphore).available ≤ uint64Max)
    (readOnly : Option String) (semaphore : Option ℕ) (keyCount : Option ℤ) :
    SemaphoreMove s (SemaphoreCall.put readOnly semaphore keyCount).putKeys
      (s.reply (llgSemaphorePut s readOnly semaphore keyCount)) := by
  rcases readOnly with _ | region
  swap; · exact .error _ _
  rcases semaphore with _ | semaphore
  · exact .error _ _
  obtain ⟨message, hcount⟩ | ⟨count, rfl, hcount⟩ := semaphoreKeyCount_cases keyCount
  · simp only [llgSemaphorePut, regionCanMutate, semaphoreValid, hcount]
    exact .error _ _
  · simp only [llgSemaphorePut, regionCanMutate, semaphoreValid, hcount]
    change SemaphoreMove s (fun other => if semaphore = other then count.toNat else 0)
      (s.reply (if count.toNat = 0 then _ else _))
    split_ifs with hzero hover
    · simp only [hzero, ite_self]
      exact .nothing
    · exact .error _ _
    · exact .add semaphore _ (Nat.pos_of_ne_zero hzero) (by have := hmax semaphore; omega)

lemma semaphoreGet_move (readOnly : Option String) (self semaphore : Option ℕ)
    (keyCount : Option ℤ) (hcan : s.Can (.get readOnly self semaphore keyCount)) :
    SemaphoreMove s (fun _ => 0)
      (s.reply (llgArmSemaphoreGet s readOnly self semaphore keyCount)) := by
  rcases readOnly with _ | region
  swap; · exact .error _ _
  rcases semaphore with _ | semaphore
  · exact .error _ _
  rcases self with _ | proc
  · exact .error _ _
  obtain ⟨message, hcount⟩ | ⟨count, rfl, hcount⟩ := semaphoreKeyCount_cases keyCount
  · simp only [llgArmSemaphoreGet, regionCanMutate, semaphoreValid, hcount]
    exact .error _ _
  · simp only [llgArmSemaphoreGet, regionCanMutate, semaphoreValid, hcount]
    change SemaphoreMove s _ (s.reply (if count.toNat = 0 then _ else _))
    split_ifs with hzero hfits
    · exact .nothing
    · exact .take semaphore proc _ hfits
    · exact .enqueue semaphore proc _ (Nat.lt_of_not_le hfits) hcan.1 hcan.2

lemma semaphoreTryGet_move (readOnly : Option String) (proc : ℕ) (semaphore : Option ℕ)
    (keyCount : Option ℤ) :
    SemaphoreMove s (fun _ => 0)
      (s.reply (llgSemaphoreTryGet s readOnly proc semaphore keyCount)) := by
  rcases readOnly with _ | region
  swap; · exact .error _ _
  rcases semaphore with _ | semaphore
  · exact .error _ _
  obtain ⟨message, hcount⟩ | ⟨count, rfl, hcount⟩ := semaphoreKeyCount_cases keyCount
  · simp only [llgSemaphoreTryGet, regionCanMutate, semaphoreValid, hcount]
    exact .error _ _
  · simp only [llgSemaphoreTryGet, regionCanMutate, semaphoreValid, hcount]
    change SemaphoreMove s _ (s.reply (if count.toNat = 0 then _ else _))
    split_ifs with hzero hshort
    · exact .nothing
    · exact .refuse semaphore proc _
    · exact .take semaphore proc _ (Nat.le_of_not_lt hshort)

/-- Every call has one of the outcomes. -/
lemma semaphoreStep_move (hmax : ∀ semaphore, (s.semaphores semaphore).available ≤ uint64Max)
    (hcan : s.Can call) : SemaphoreMove s call.putKeys (semaphoreStep s call) := by
  cases call with
  | put readOnly semaphore keyCount => exact semaphorePut_move hmax readOnly semaphore keyCount
  | get readOnly self semaphore keyCount =>
    exact semaphoreGet_move readOnly self semaphore keyCount hcan
  | tryGet readOnly proc semaphore keyCount =>
    exact semaphoreTryGet_move readOnly proc semaphore keyCount
  | kill proc => exact .kill proc

end Steps

end Lapligence.Scheduler
