import Lapligence.Scheduler.Semaphore

/-!
# Histories of semaphore calls

What holds after every history of calls and kills.  `SemaphoreState.Inv` is kept by every step and
says that no waiting request could be granted.  `SemaphoreEffect` is one semaphore as it is meant to
be, without processes; every step of the code acts on each semaphore by one of its effects, and
`SemaphoreLedger` adds the effects of a history up.
-/

namespace Lapligence.Scheduler

open Function List Nat SemaphoreState

/-! ## The invariant -/

/-- What holds of one semaphore between calls.  Its queue holds exactly the requests that live
processes wait for, in the order of their numbers, and each asks for more keys than are
available. -/
structure SemaphoreState.QueueInv (s : SemaphoreState) (semaphore : ℕ) : Prop where
  available_le : (s.semaphores semaphore).available ≤ uint64Max
  starved : ∀ w ∈ (s.semaphores semaphore).waiters, (s.semaphores semaphore).available < w.keys
  waiting : ∀ proc node, s.wait proc = some ⟨semaphore, node⟩ ↔
    ∃ w ∈ (s.semaphores semaphore).waiters, w.proc = proc ∧ w.node = node
  ordered : (s.semaphores semaphore).waiters.Pairwise fun v w => v.node < w.node
  fresh : ∀ w ∈ (s.semaphores semaphore).waiters, w.node < s.requests
  alive : ∀ w ∈ (s.semaphores semaphore).waiters, s.killed w.proc = false

/-- The invariant of the run. -/
def SemaphoreState.Inv (s : SemaphoreState) : Prop :=
  ∀ semaphore, s.QueueInv semaphore

lemma semaphoreStart_inv {initial : ℕ → ℕ} (h : ∀ semaphore, initial semaphore ≤ uint64Max) :
    (semaphoreStart initial).Inv := fun semaphore =>
  { available_le := h semaphore
    starved := fun _ hw => absurd hw not_mem_nil
    waiting := by simp [semaphoreStart]
    ordered := List.Pairwise.nil
    fresh := fun _ hw => absurd hw not_mem_nil
    alive := fun _ hw => absurd hw not_mem_nil }

namespace SemaphoreState.QueueInv

variable {s t : SemaphoreState} {semaphore proc keys node : ℕ} {v w : SemaphoreWait}

lemma linked (h : s.QueueInv semaphore) (hw : w ∈ (s.semaphores semaphore).waiters) :
    s.wait w.proc = some ⟨semaphore, w.node⟩ :=
  (h.waiting _ _).2 ⟨w, hw, rfl, rfl⟩

/-- A process waits for at most one request. -/
lemma procs_nodup (h : s.QueueInv semaphore) :
    ((s.semaphores semaphore).waiters.map SemaphoreWait.proc).Nodup := by
  refine pairwise_map.2 (h.ordered.imp_of_mem fun {v w} hv hw hlt heq => ?_)
  have hwait := (h.linked hv).symm.trans (heq ▸ h.linked hw)
  simp only [Option.some.injEq, SemaphorePayload.mk.injEq, true_and] at hwait
  omega

lemma nodes_nodup (h : s.QueueInv semaphore) :
    ((s.semaphores semaphore).waiters.map SemaphoreWait.node).Nodup :=
  pairwise_map.2 (h.ordered.imp ne_of_lt)

/-- A semaphore that a step leaves alone keeps its invariant. -/
lemma frame (h : s.QueueInv semaphore) (hq : t.semaphores semaphore = s.semaphores semaphore)
    (hwait : ∀ proc node, t.wait proc = some ⟨semaphore, node⟩ ↔
      s.wait proc = some ⟨semaphore, node⟩) (hrequests : s.requests ≤ t.requests)
    (hkilled : ∀ proc node, t.wait proc = some ⟨semaphore, node⟩ →
      t.killed proc = s.killed proc) : t.QueueInv semaphore where
  available_le := hq ▸ h.available_le
  starved := hq ▸ h.starved
  waiting proc node := by rw [hwait, hq]; exact h.waiting proc node
  ordered := hq ▸ h.ordered
  fresh w hw := lt_of_lt_of_le (h.fresh w (hq ▸ hw)) hrequests
  alive w hw := by
    rw [hq] at hw
    rw [hkilled w.proc w.node ((hwait _ _).2 (h.linked hw))]
    exact h.alive w hw

end SemaphoreState.QueueInv

namespace SemaphoreState.Inv

variable {s : SemaphoreState} {semaphore proc keys : ℕ}

/-- The pass of a `put` grants what `serve` does. -/
lemma add_eq (h : s.Inv) (hmax : (s.semaphores semaphore).available + keys ≤ uint64Max) :
    let served := serve ((s.semaphores semaphore).available + keys)
      (s.semaphores semaphore).waiters
    s.add semaphore keys =
      ({ s.set semaphore ⟨served.2.2, served.2.1⟩ with wait := endWaits s.wait served.1 },
        .added semaphore keys :: served.1.map (.granted semaphore)) := by
  have hmod : ((s.semaphores semaphore).available + keys) % 2 ^ 64 =
      (s.semaphores semaphore).available + keys :=
    mod_eq_of_lt (lt_of_le_of_lt hmax (by decide))
  have hpass := semaphoreWakeAvailable_eq ((s.semaphores semaphore).available + keys) s.wait
    (fun w hw => by rw [(h semaphore).linked hw]; rfl) (h semaphore).procs_nodup
    fun w hw => zero_lt_of_lt ((h semaphore).starved w hw)
  simp only [add, hmod, hpass]

/-- Some requests of one queue, `gone`, end: their processes wait no longer, and no others are
killed. -/
lemma drop (h : s.Inv) {gone left : List SemaphoreWait} {available : ℕ} {killed : ℕ → Bool}
    (hperm : (gone ++ left).Perm (s.semaphores semaphore).waiters)
    (hsub : left.Sublist (s.semaphores semaphore).waiters) (hmax : available ≤ uint64Max)
    (hstarved : ∀ w ∈ left, available < w.keys)
    (hkilled : ∀ proc, proc ∉ gone.map SemaphoreWait.proc → killed proc = s.killed proc) :
    Inv { s.set semaphore ⟨available, left⟩ with wait := endWaits s.wait gone, killed := killed } := by
  -- a process whose wait ends is in no queue any more
  have hprocs : ∀ w ∈ left, w.proc ∉ gone.map SemaphoreWait.proc := by
    have hnodup := (hperm.map SemaphoreWait.proc).nodup_iff.2 (h semaphore).procs_nodup
    rw [map_append] at hnodup
    exact fun w hw hmem => (nodup_append.1 hnodup).2.2 _ hmem _ (mem_map_of_mem hw) rfl
  intro other
  by_cases ho : other = semaphore
  · subst ho
    refine ⟨?_, ?_, ?_, ?_, ?_, ?_⟩ <;> simp only [set, update_self]
    · exact hmax
    · exact hstarved
    · intro proc node
      rw [endWaits]
      split_ifs with hmem
      · refine ⟨fun hnone => by simp at hnone, ?_⟩
        rintro ⟨w, hw, rfl, -⟩
        exact absurd hmem (hprocs w hw)
      · rw [(h other).waiting]
        constructor
        · rintro ⟨w, hw, rfl, rfl⟩
          rcases mem_append.1 (hperm.mem_iff.2 hw) with hw | hw
          · exact absurd (mem_map_of_mem hw) hmem
          · exact ⟨w, hw, rfl, rfl⟩
        · rintro ⟨w, hw, hpn⟩
          exact ⟨w, hsub.subset hw, hpn⟩
    · exact (h other).ordered.sublist hsub
    · exact fun w hw => (h other).fresh w (hsub.subset hw)
    · intro w hw
      rw [hkilled _ (hprocs w hw)]
      exact (h other).alive w (hsub.subset hw)
  · refine (h other).frame (by simp [set, ho]) ?_ (le_refl _) ?_
    · intro proc node
      simp only [endWaits]
      split_ifs with hmem
      · refine ⟨fun hnone => by simp at hnone, fun hwait => ?_⟩
        -- the process waited for this semaphore, not for the other
        obtain ⟨w, hw, rfl⟩ := mem_map.1 hmem
        rw [(h semaphore).linked (hperm.subset (mem_append_left _ hw))] at hwait
        simp only [Option.some.injEq, SemaphorePayload.mk.injEq] at hwait
        exact absurd hwait.1.symm ho
      · exact Iff.rfl
    · intro proc node hwait
      refine hkilled proc fun hmem => ?_
      simp [endWaits, hmem] at hwait

lemma add_inv (h : s.Inv) (hmax : (s.semaphores semaphore).available + keys ≤ uint64Max) :
    (s.add semaphore keys).1.Inv := by
  rw [h.add_eq hmax]
  have hkeys := keysOf_serve ((s.semaphores semaphore).available + keys)
    (s.semaphores semaphore).waiters
  exact h.drop (serve_perm _ _) (serve_left_sublist _ _) (by omega)
    (fun w hw => lt_keys_of_mem_serve_left hw) fun _ _ => rfl

lemma take_inv (h : s.Inv) (hfits : keys ≤ (s.semaphores semaphore).available) :
    (s.take semaphore proc keys).1.Inv := by
  intro other
  by_cases ho : other = semaphore
  · subst ho
    obtain ⟨hle, hstarved, hwaiting, hordered, hfresh, halive⟩ := h other
    refine ⟨?_, ?_, ?_, ?_, ?_, ?_⟩ <;>
      simp only [take, set, update_self]
    · omega
    · exact fun w hw => by have := hstarved w hw; omega
    · exact hwaiting
    · exact hordered
    · exact fun w hw => lt_succ_of_lt (hfresh w hw)
    · exact halive
  · exact (h other).frame (by simp [take, set, ho])
      (fun _ _ => Iff.rfl) (le_succ _) fun _ _ _ => rfl

lemma enqueue_inv (h : s.Inv) (hshort : (s.semaphores semaphore).available < keys)
    (hwait : s.wait proc = none) (hkilled : s.killed proc = false) :
    (s.enqueue semaphore proc keys).1.Inv := by
  intro other
  by_cases ho : other = semaphore
  · subst ho
    obtain ⟨hle, hstarved, hwaiting, hordered, hfresh, halive⟩ := h other
    refine ⟨?_, ?_, ?_, ?_, ?_, ?_⟩ <;>
      simp only [enqueue, set, request,
        update_self, mem_append, mem_singleton]
    · exact hle
    · rintro w (hw | rfl)
      · exact hstarved w hw
      · exact hshort
    · intro p node
      by_cases hp : p = proc
      · subst hp
        rw [update_self]
        constructor
        · intro hpay
          simp only [Option.some.injEq, SemaphorePayload.mk.injEq, true_and] at hpay
          exact ⟨_, .inr rfl, rfl, hpay⟩
        · rintro ⟨w, hw | rfl, hwp, hwn⟩
          · -- a process that calls is in no queue
            have := (hwaiting w.proc w.node).2 ⟨w, hw, rfl, rfl⟩
            simp [hwp, hwait] at this
          · rw [← hwn]
      · rw [update_of_ne hp, hwaiting]
        constructor
        · rintro ⟨w, hw, hpn⟩
          exact ⟨w, .inl hw, hpn⟩
        · rintro ⟨w, hw | rfl, hwp, hwn⟩
          · exact ⟨w, hw, hwp, hwn⟩
          · exact absurd hwp.symm hp
    · refine pairwise_append.2 ⟨hordered, pairwise_singleton _ _, fun v hv w hw => ?_⟩
      rw [mem_singleton.1 hw]
      exact hfresh v hv
    · rintro w (hw | rfl)
      · exact lt_succ_of_lt (hfresh w hw)
      · exact lt_succ_self _
    · rintro w (hw | rfl)
      · exact halive w hw
      · exact hkilled
  · refine (h other).frame (by simp [enqueue, set, ho]) ?_
      (le_succ _) fun _ _ _ => rfl
    intro p node
    by_cases hp : p = proc
    · subst hp
      simp [enqueue, hwait, Ne.symm ho]
    · simp [enqueue, update_of_ne hp]

/-- The request of a killed process is taken out of its queue; the others stay. -/
lemma kill_inv (h : s.Inv) : (s.llgKillProc proc).Inv := by
  rw [llgKillProc]
  split_ifs with hdead
  · exact h
  dsimp only
  rcases hwait : s.wait proc with _ | ⟨semaphore, node⟩
  · -- a process that does not wait is in no queue
    intro other
    refine (h other).frame rfl (fun _ _ => Iff.rfl) (le_refl _) fun p node hp => ?_
    have hne : p ≠ proc := fun he => by simp [he, hwait] at hp
    simp [update_of_ne hne]
  · obtain ⟨w, hw, rfl, rfl⟩ := ((h semaphore).waiting proc node).1 hwait
    obtain ⟨v, ws, ws', -, hv, hq, hleft⟩ :=
      exists_of_eraseP (p := fun v => v.node = w.node) hw (by simp)
    -- the request taken out is the one the process waits for
    obtain rfl : v = w := inj_on_of_nodup_map (h semaphore).nodes_nodup (by rw [hq]; simp) hw
      (by simpa using hv)
    have hends : update s.wait v.proc none = endWaits s.wait [v] := by
      funext p
      simp [endWaits, update_apply]
    rw [hends]
    refine h.drop ?_ eraseP_sublist (h semaphore).available_le
      (fun u hu => (h semaphore).starved u (List.eraseP_sublist.subset hu)) fun p hp => ?_
    · rw [hleft, hq, singleton_append]
      exact perm_middle.symm
    · exact update_of_ne (by simpa using hp) _ _

/-- Every step keeps the invariant. -/
lemma step (h : s.Inv) {call : SemaphoreCall} (hcan : s.Can call) :
    (semaphoreStep s call).1.Inv := by
  have hmove := semaphoreStep_move (fun semaphore => (h semaphore).available_le) hcan
  generalize semaphoreStep s call = result at hmove
  generalize call.putKeys = puts at hmove
  cases hmove with
  | error =>
    exact fun other => (h other).frame rfl (fun _ _ => Iff.rfl) (le_refl _) fun _ _ _ => rfl
  | nothing => exact h
  | add semaphore keys _ hmax => exact h.add_inv hmax
  | take semaphore proc keys hfits => exact h.take_inv hfits
  | enqueue semaphore proc keys hshort hwait hkilled => exact h.enqueue_inv hshort hwait hkilled
  | refuse =>
    exact fun other => (h other).frame rfl (fun _ _ => Iff.rfl) (le_succ _) fun _ _ _ => rfl
  | kill => exact h.kill_inv

end SemaphoreState.Inv

/-! ## One semaphore by itself

Seen from one semaphore, a step is one of four effects on its keys and its queue.  This is the
semaphore as it is meant to be; the histories below are read off from it. -/

/-- The requests of a semaphore that some events grant, in order. -/
def grantsOn (semaphore : ℕ) (events : List SemaphoreEvent) : List SemaphoreWait :=
  events.filterMap fun
    | .granted target request => if target = semaphore then some request else none
    | _ => none

/-- The keys that some events add to a semaphore. -/
def addedOn (semaphore : ℕ) (events : List SemaphoreEvent) : ℕ :=
  (events.map fun
    | .added target keys => if target = semaphore then keys else 0
    | _ => 0).sum

/-- The keys that some calls put into a semaphore. -/
def putsOn (semaphore : ℕ) (calls : List SemaphoreCall) : ℕ :=
  (calls.map fun call => call.putKeys semaphore).sum

/-- The effects: requests leave the queue without keys, keys are added and served in order, a
request that fits takes its keys, a request is queued behind the others. -/
inductive SemaphoreEffect (q : Semaphore) (requests : ℕ) :
    Semaphore → ℕ → ℕ → List SemaphoreWait → Prop
  | leave (waiters : List SemaphoreWait) (requests' : ℕ) : waiters.Sublist q.waiters →
      requests ≤ requests' → SemaphoreEffect q requests ⟨q.available, waiters⟩ requests' 0 []
  | add (keys : ℕ) : SemaphoreEffect q requests
      ⟨(serve (q.available + keys) q.waiters).2.2, (serve (q.available + keys) q.waiters).2.1⟩
      requests keys (serve (q.available + keys) q.waiters).1
  | take (proc keys : ℕ) : keys ≤ q.available → SemaphoreEffect q requests
      ⟨q.available - keys, q.waiters⟩ (requests + 1) 0 [⟨requests, proc, keys⟩]
  | enqueue (proc keys : ℕ) : SemaphoreEffect q requests
      ⟨q.available, q.waiters ++ [⟨requests, proc, keys⟩]⟩ (requests + 1) 0 []

section Effects

variable {s : SemaphoreState} {call : SemaphoreCall}

@[simp] lemma grantsOn_append (semaphore : ℕ) (events events' : List SemaphoreEvent) :
    grantsOn semaphore (events ++ events') =
      grantsOn semaphore events ++ grantsOn semaphore events' :=
  filterMap_append

@[simp] lemma addedOn_append (semaphore : ℕ) (events events' : List SemaphoreEvent) :
    addedOn semaphore (events ++ events') =
      addedOn semaphore events + addedOn semaphore events' := by
  simp [addedOn]

lemma grantsOn_granted (semaphore other : ℕ) (ws : List SemaphoreWait) :
    grantsOn other (ws.map (.granted semaphore)) = if semaphore = other then ws else [] := by
  split_ifs with h
  · induction ws with
    | nil => rfl
    | cons => simp [grantsOn, h]
  · induction ws with
    | nil => rfl
    | cons => simp [grantsOn, h]

/-- The grants of a `put`. -/
lemma grantsOn_add (semaphore other keys : ℕ) (ws : List SemaphoreWait) :
    grantsOn other (.added semaphore keys :: ws.map (.granted semaphore)) =
      if semaphore = other then ws else [] := by
  rw [← grantsOn_granted]
  rfl

/-- The keys of a `put`. -/
lemma addedOn_add (semaphore other keys : ℕ) (ws : List SemaphoreWait) :
    addedOn other (.added semaphore keys :: ws.map (.granted semaphore)) =
      if semaphore = other then keys else 0 := by
  have hgranted : addedOn other (ws.map (.granted semaphore)) = 0 := by
    induction ws with
    | nil => rfl
    | cons w ws ih => simpa [addedOn] using ih
  rw [← singleton_append, addedOn_append, hgranted]
  simp [addedOn]

/-- A step leaves a semaphore as it is. -/
lemma SemaphoreEffect.same {q : Semaphore} {requests requests' : ℕ} (h : requests ≤ requests') :
    SemaphoreEffect q requests q requests' 0 [] :=
  .leave q.waiters requests' (List.Sublist.refl _) h

/-- A kill only takes requests out of queues. -/
lemma SemaphoreState.llgKillProc_semaphores (s : SemaphoreState) (proc semaphore : ℕ) :
    ∃ waiters, waiters.Sublist (s.semaphores semaphore).waiters ∧
      (s.llgKillProc proc).semaphores semaphore =
        ⟨(s.semaphores semaphore).available, waiters⟩ := by
  rw [llgKillProc]
  split_ifs
  · exact ⟨_, List.Sublist.refl _, rfl⟩
  dsimp only
  rcases s.wait proc with _ | ⟨target, node⟩
  · exact ⟨_, List.Sublist.refl _, rfl⟩
  · by_cases ht : semaphore = target
    · subst ht
      simp only [semaphoreWaiterUnlink, set, update_self]
      exact ⟨_, eraseP_sublist, rfl⟩
    · simp only [semaphoreWaiterUnlink, set, update_of_ne ht]
      exact ⟨_, List.Sublist.refl _, rfl⟩

lemma SemaphoreState.llgKillProc_finish (s : SemaphoreState) (proc : ℕ) :
    (s.llgKillProc proc).finish = s.finish ∧ (s.llgKillProc proc).requests = s.requests := by
  rw [llgKillProc]
  split_ifs
  · exact ⟨rfl, rfl⟩
  dsimp only
  rcases s.wait proc with _ | payload <;> exact ⟨rfl, rfl⟩

/-- Every step acts on each semaphore by one of the effects. -/
lemma SemaphoreState.Inv.effect (h : s.Inv) (hcan : s.Can call) (semaphore : ℕ) :
    SemaphoreEffect (s.semaphores semaphore) s.requests
      ((semaphoreStep s call).1.semaphores semaphore) (semaphoreStep s call).1.requests
      (addedOn semaphore (semaphoreStep s call).2)
      (grantsOn semaphore (semaphoreStep s call).2) := by
  have hmove := semaphoreStep_move (fun semaphore => (h semaphore).available_le) hcan
  generalize semaphoreStep s call = result at hmove
  generalize call.putKeys = puts at hmove
  cases hmove with
  | error | nothing => exact .same (le_refl _)
  | add target keys _ hmax =>
    rw [h.add_eq hmax]
    rw [addedOn_add, grantsOn_add]
    by_cases ht : target = semaphore
    · subst ht
      simp only [set, update_self, if_true]
      exact .add keys
    · simp only [set, update_of_ne (Ne.symm ht), if_neg ht]
      exact .same (le_refl _)
  | take target proc keys hfits =>
    by_cases ht : target = semaphore
    · subst ht
      simp only [take, set, request, addedOn,
        grantsOn, update_self, filterMap_cons, filterMap_nil, if_true]
      exact .take proc keys hfits
    · simp only [take, set, update_of_ne (Ne.symm ht),
        addedOn, grantsOn, filterMap_cons, filterMap_nil, if_neg ht]
      exact .same (le_succ _)
  | enqueue target proc keys =>
    by_cases ht : target = semaphore
    · subst ht
      simp only [enqueue, set, update_self]
      exact .enqueue proc keys
    · simp only [enqueue, set, update_of_ne (Ne.symm ht)]
      exact .same (le_succ _)
  | refuse => exact .same (le_succ _)
  | kill proc =>
    obtain ⟨waiters, hsub, hq⟩ := llgKillProc_semaphores s proc semaphore
    simp only [hq]
    exact .leave waiters _ hsub (le_of_eq (llgKillProc_finish s proc).2.symm)

end Effects

/-! ## Histories -/

/-- The books of a semaphore between a start (`q₀`, with `n₀` requests made) and now (`q`, `n`): the
keys balance, no request is granted twice, and none is granted or waits that was neither waiting at
the start nor made since. -/
structure SemaphoreLedger (q₀ : Semaphore) (n₀ added : ℕ) (grants : List SemaphoreWait)
    (q : Semaphore) (n : ℕ) : Prop where
  balance : q₀.available + added = q.available + keysOf grants
  requests_le : n₀ ≤ n
  once : (grants.map SemaphoreWait.node).Nodup
  past : ∀ w ∈ grants, w.node < n
  gone : ∀ w ∈ grants, ∀ v ∈ q.waiters, v.node ≠ w.node
  origin : ∀ w ∈ grants, w ∈ q₀.waiters ∨ n₀ ≤ w.node
  waiting : ∀ v ∈ q.waiters, v ∈ q₀.waiters ∨ n₀ ≤ v.node

namespace SemaphoreLedger

variable {q₀ q q' : Semaphore} {n₀ n n' added added' : ℕ} {grants grants' : List SemaphoreWait}

lemma refl (q : Semaphore) (n : ℕ) : SemaphoreLedger q n 0 [] q n :=
  ⟨rfl, le_refl _, nodup_nil, nofun, nofun, nofun, fun _ hv => .inl hv⟩

variable (h : SemaphoreLedger q₀ n₀ added grants q n) (hfresh : ∀ w ∈ q.waiters, w.node < n)
include h hfresh

/-- Requests `grants'` are granted: they were waiting or are new, and they wait no longer. -/
lemma enter (hle : n ≤ n') (hbalance : q.available + added' = q'.available + keysOf grants')
    (honce : (grants'.map SemaphoreWait.node).Nodup)
    (hgrants : ∀ w ∈ grants', w ∈ q.waiters ∨ n ≤ w.node ∧ w.node < n')
    (hgone : ∀ w ∈ grants', ∀ v ∈ q'.waiters, v.node ≠ w.node)
    (hwaiters : ∀ v ∈ q'.waiters, v ∈ q.waiters ∨ n ≤ v.node) :
    SemaphoreLedger q₀ n₀ (added + added') (grants ++ grants') q' n' := by
  obtain ⟨hbalance₀, hle₀, honce₀, hpast₀, hgone₀, horigin₀, hwaiting₀⟩ := h
  -- a request that was waiting or is new has not been granted yet
  have hnew : ∀ w ∈ grants, ∀ v, v ∈ q.waiters ∨ n ≤ v.node → v.node ≠ w.node := by
    rintro w hw v (hv | hv)
    · exact hgone₀ w hw v hv
    · exact (Nat.ne_of_lt (lt_of_lt_of_le (hpast₀ w hw) hv)).symm
  have horigin : ∀ v, v ∈ q.waiters ∨ n ≤ v.node → v ∈ q₀.waiters ∨ n₀ ≤ v.node :=
    fun v hv => hv.elim (hwaiting₀ v) fun hv => .inr (hle₀.trans hv)
  have hseen : ∀ w ∈ grants', w ∈ q.waiters ∨ n ≤ w.node := fun w hw => (hgrants w hw).imp_right And.left
  refine ⟨?_, hle₀.trans hle, ?_, fun w hw => ?_, fun w hw v hv => ?_, fun w hw => ?_,
    fun v hv => horigin v (hwaiters v hv)⟩
  · simp only [keysOf, map_append, List.sum_append] at hbalance₀ hbalance ⊢
    omega
  · rw [map_append]
    refine nodup_append.2 ⟨honce₀, honce, fun a ha b hb => ?_⟩
    obtain ⟨w, hw, rfl⟩ := mem_map.1 ha
    obtain ⟨v, hv, rfl⟩ := mem_map.1 hb
    exact (hnew w hw v (hseen v hv)).symm
  · rcases mem_append.1 hw with hw | hw
    · exact lt_of_lt_of_le (hpast₀ w hw) hle
    · exact (hgrants w hw).elim (fun hw => lt_of_lt_of_le (hfresh w hw) hle) And.right
  · rcases mem_append.1 hw with hw | hw
    · exact hnew w hw v (hwaiters v hv)
    · exact hgone w hw v hv
  · rcases mem_append.1 hw with hw | hw
    · exact horigin₀ w hw
    · exact horigin w (hseen w hw)

lemma add (hnodes : (q.waiters.map SemaphoreWait.node).Nodup) (keys : ℕ) :
    SemaphoreLedger q₀ n₀ (added + keys) (grants ++ (serve (q.available + keys) q.waiters).1)
      ⟨(serve (q.available + keys) q.waiters).2.2, (serve (q.available + keys) q.waiters).2.1⟩
      n := by
  have hkeys := keysOf_serve (q.available + keys) q.waiters
  have hleft := serve_left_sublist (q.available + keys) q.waiters
  have hperm := serve_perm (q.available + keys) q.waiters
  generalize serve (q.available + keys) q.waiters = served at *
  -- the requests granted and those left have different numbers
  have hsplit := (hperm.map SemaphoreWait.node).nodup_iff.2 hnodes
  rw [map_append] at hsplit
  obtain ⟨hnodup, -, hapart⟩ := nodup_append.1 hsplit
  refine h.enter hfresh le_rfl (by dsimp only; omega) hnodup (fun w hw => .inl (hperm.subset (mem_append_left _ hw)))
    (fun w hw v hv => ?_) fun v hv => .inl (hleft.subset hv)
  exact (hapart _ (mem_map_of_mem hw) _ (mem_map_of_mem hv)).symm

/-- One more effect is entered in the books. -/
lemma snoc (hnodes : (q.waiters.map SemaphoreWait.node).Nodup)
    (he : SemaphoreEffect q n q' n' added' grants') :
    SemaphoreLedger q₀ n₀ (added + added') (grants ++ grants') q' n' := by
  cases he with
  | leave waiters requests' hsub hle =>
    exact h.enter hfresh hle rfl nodup_nil (forall_mem_nil _) (forall_mem_nil _) fun v hv => .inl (hsub.subset hv)
  | add => exact h.add hfresh hnodes _
  | take proc keys hfits =>
    refine h.enter hfresh (le_succ n) ?_ (nodup_singleton _) (fun w hw => ?_) (fun w hw v hv => ?_) fun v => .inl
    · simp only [keysOf, map_cons, map_nil, sum_cons, sum_nil]
      omega
    · rw [mem_singleton.1 hw]
      exact .inr ⟨le_rfl, lt_succ_self n⟩
    · rw [mem_singleton.1 hw]
      exact Nat.ne_of_lt (hfresh v hv)
  | enqueue =>
    refine h.enter hfresh (le_succ n) rfl nodup_nil (forall_mem_nil _) (forall_mem_nil _) fun v hv => ?_
    refine (mem_append.1 hv).imp_right fun hv => ?_
    rw [mem_singleton.1 hv]

end SemaphoreLedger

section Runs

variable {s t : SemaphoreState} {calls : List SemaphoreCall} {events : List SemaphoreEvent}

lemma SemaphoreState.Inv.run (hs : s.Inv) (h : semaphoreMachine.Run s calls events t) : t.Inv :=
  h.invariant (fun _ _ ht hcan => ht.step hcan) hs

/-- The books of every run are in order. -/
lemma SemaphoreState.Inv.ledger (hs : s.Inv) (h : semaphoreMachine.Run s calls events t)
    (semaphore : ℕ) :
    SemaphoreLedger (s.semaphores semaphore) s.requests (addedOn semaphore events)
      (grantsOn semaphore events) (t.semaphores semaphore) t.requests := by
  refine h.history (I := SemaphoreState.Inv) (H := fun _ events t =>
    SemaphoreLedger (s.semaphores semaphore) s.requests (addedOn semaphore events)
      (grantsOn semaphore events) (t.semaphores semaphore) t.requests)
    (fun _ _ ht hcan => ht.step hcan) ?_ hs (.refl _ _)
  intro calls events t call ht hledger hcan
  rw [addedOn_append, grantsOn_append]
  exact hledger.snoc (ht semaphore).fresh (ht semaphore).nodes_nodup (ht.effect hcan semaphore)

/-- In a run without error every put is added. -/
lemma SemaphoreState.Inv.puts (hs : s.Inv) (h : semaphoreMachine.Run s calls events t)
    (hfinish : t.finish = false) (semaphore : ℕ) :
    addedOn semaphore events = putsOn semaphore calls := by
  refine h.history (I := SemaphoreState.Inv) (H := fun calls events t =>
    t.finish = false → addedOn semaphore events = putsOn semaphore calls)
    (fun _ _ ht hcan => ht.step hcan) ?_ hs (fun _ => rfl) hfinish
  intro calls events t call ht hputs hcan
  have hmove := semaphoreStep_move (fun semaphore => (ht semaphore).available_le) hcan
  have hput : putsOn semaphore (calls ++ [call]) =
      putsOn semaphore calls + call.putKeys semaphore := by
    simp [putsOn]
  rw [addedOn_append, hput]
  change (semaphoreStep t call).1.finish = false →
    _ + addedOn semaphore (semaphoreStep t call).2 = _
  generalize semaphoreStep t call = result at hmove
  generalize call.putKeys = puts at hmove
  intro hfinish
  cases hmove with
  | error => simp at hfinish
  | add target keys _ hmax =>
    rw [ht.add_eq hmax] at hfinish ⊢
    rw [addedOn_add, hputs hfinish]
  | kill proc =>
    rw [(llgKillProc_finish t proc).1] at hfinish
    rw [hputs hfinish]
    rfl
  | nothing | take | enqueue | refuse => rw [hputs hfinish]; rfl

end Runs

/-! ## The calls of a reached state -/

section Calls

variable {s : SemaphoreState} {semaphore proc keys : ℕ}

lemma semaphoreKeyCount_natCast (keys : ℕ) : semaphoreKeyCount (some (keys : ℤ)) = .ok keys := by
  simp [semaphoreKeyCount]

lemma semaphoreStep_put (hkeys : 0 < keys) :
    semaphoreStep s (.put none (some semaphore) (some keys)) =
      if uint64Max - (s.semaphores semaphore).available < keys then
        ({ s with finish := true }, [.error "llg: semaphore key count overflow in put"])
      else s.add semaphore keys := by
  simp only [semaphoreStep, llgSemaphorePut, regionCanMutate, semaphoreValid,
    semaphoreKeyCount_natCast]
  change s.reply (if keys = 0 then _ else _) = _
  rw [if_neg (ne_of_gt hkeys)]
  split_ifs <;> rfl

lemma semaphoreStep_get (hkeys : 0 < keys) :
    semaphoreStep s (.get none (some proc) (some semaphore) (some keys)) =
      if keys ≤ (s.semaphores semaphore).available then s.take semaphore proc keys
      else s.enqueue semaphore proc keys := by
  simp only [semaphoreStep, llgArmSemaphoreGet, regionCanMutate, semaphoreValid,
    semaphoreKeyCount_natCast]
  change s.reply (if keys = 0 then _ else _) = _
  rw [if_neg (ne_of_gt hkeys)]
  split_ifs <;> rfl

lemma semaphoreStep_tryGet (hkeys : 0 < keys) :
    semaphoreStep s (.tryGet none proc (some semaphore) (some keys)) =
      if keys ≤ (s.semaphores semaphore).available then s.take semaphore proc keys
      else ({ s with requests := s.requests + 1 }, [.refused semaphore (s.request proc keys)]) := by
  simp only [semaphoreStep, llgSemaphoreTryGet, regionCanMutate, semaphoreValid,
    semaphoreKeyCount_natCast]
  change s.reply (if keys = 0 then _ else _) = _
  rw [if_neg (ne_of_gt hkeys)]
  split_ifs <;> first | rfl | omega

/-- A killed process leaves its queue. -/
lemma SemaphoreState.Inv.not_queued_of_kill (h : s.Inv) {v w : SemaphoreWait}
    (hw : w ∈ (s.semaphores semaphore).waiters)
    (hv : v ∈ ((s.llgKillProc w.proc).semaphores semaphore).waiters) : v.node ≠ w.node := by
  intro he
  have hdead : (s.llgKillProc w.proc).killed w.proc = true := by
    rw [llgKillProc]
    split_ifs with hk
    · exact hk
    dsimp only
    rcases s.wait w.proc with _ | payload
    · exact update_self ..
    · exact update_self ..
  obtain ⟨waiters, hsub, hq⟩ := llgKillProc_semaphores s w.proc semaphore
  have hold : v ∈ (s.semaphores semaphore).waiters := hsub.subset (by rwa [hq] at hv)
  rw [inj_on_of_nodup_map (h semaphore).nodes_nodup hold hw he] at hv
  simp [(h.kill_inv semaphore).alive w hv] at hdead

end Calls

end Lapligence.Scheduler
