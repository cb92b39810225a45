import Lapligence.Framework.Fallible
import Lapligence.Framework.Runs
import Lapligence.Scheduler.Switches

/-!
# Module path outputs

The scheduling of the states of one bit of a module path output (`path_choose`, `path_bit_schedule` and what
they call in `scheduler/nets.c`).  A request chooses a delay among the paths into the bit and is then weighed
as a pulse against the states scheduled before it, which it may cancel or turn into X.

The record of the bit keeps the next state to be committed apart from the queue of those that follow it; here
they are one list, from the latest scheduled to the next committed one, which is the order in which a request
meets them.  `pathBitSchedule_spec` says what a request leaves, `pathBit_settles` what holds over whole
histories.
-/

namespace Lapligence.Scheduler

open List

/-! ## The choice of a delay -/

/-- `path_transition_index`. -/
def pathTransitionIndex : BitState → BitState → Option (Fin 12)
  | .zero, .one => some 0 | .zero, .x => some 6 | .zero, .z => some 2
  | .one, .zero => some 1 | .one, .x => some 8 | .one, .z => some 4
  | .x, .zero => some 9 | .x, .one => some 7 | .x, .z => some 10
  | .z, .zero => some 5 | .z, .one => some 3 | .z, .x => some 11
  | _, _ => none

/-- A path as a request for the bit finds it: whether it covers the bit and is enabled, and when its input last
started it (`path_covers`, `path_enabled`, `path_input_time`). -/
structure ModulePath where
  covers : Bool
  enabled : Bool
  inputTime : ℕ
  ifnone : Bool
  group : ℕ
  delays : Fin 12 → ℕ
  limits : Option ((Fin 12 → ℕ) × (Fin 12 → ℕ))

/-- What a request reads: the paths of the destination, the settings of `path_pulse` and the style of the
bit. -/
structure PathContext where
  paths : List ModulePath
  rejectPercent : ℕ
  errorPercent : ℕ
  style : Option Bool
  showCancelled : Option Bool
  styleOnDetect : Bool
  styleShowCancelled : Bool

/-- `path_choice_t`. -/
structure PathChoice where
  due : ℕ
  reject : ℕ
  error : ℕ

/-- A percentage of a delay, truncated. -/
def percentOf (delay percent : ℕ) : ℕ :=
  (delay / 100 * percent + delay % 100 * percent / 100) % 2 ^ 64

/-- The latest input time of the active paths. -/
def latestInput (active : List ModulePath) : Option ℕ :=
  active.foldl (fun latest path =>
    match latest with
    | none => some path.inputTime
    | some time => some (if path.inputTime > time then path.inputTime else time)) none

/-- The path with the smallest delay among those started last; an `ifnone` path yields to the others of its
group. -/
def choosePath (active : List ModulePath) (latest : ℕ) (transition : Fin 12) : Option ModulePath :=
  active.foldl (fun chosen path =>
    if path.inputTime ≠ latest then chosen
    else if path.ifnone ∧ active.any (fun peer =>
        peer.group = path.group ∧ ¬peer.ifnone ∧ peer.inputTime = latest) then chosen
    else
      match chosen with
      | none => some path
      | some best => if path.delays transition < best.delays transition then some path else chosen) none

/-- `path_choose`. -/
def pathChoose (context : PathContext) (now : ℕ) (transition : Fin 12) : Except String (Option PathChoice) :=
  let active := context.paths.filter fun path => path.covers && path.enabled
  match latestInput active with
  | none => .ok none
  | some latest =>
    match choosePath active latest transition with
    | none => .ok none
    | some chosen =>
      let delay := chosen.delays transition
      if delay > 2 ^ 64 - 1 - latest then
        .error "simulation time overflow while scheduling a module path delay"
      else
        let due := if latest + delay > now then latest + delay else now
        match chosen.limits with
        | some (reject, error) => .ok (some ⟨due, reject transition, error transition⟩)
        | none =>
          .ok (some ⟨due, percentOf delay context.rejectPercent, percentOf delay context.errorPercent⟩)

/-- The choice for a transition; without an active path it has no delay. -/
def pathChoiceFor (context : PathContext) (now : ℕ) (projected state : BitState) :
    Except String PathChoice :=
  match pathTransitionIndex projected state with
  | none => .ok ⟨now, 0, 0⟩
  | some transition => do
    let choice ← pathChoose context now transition
    return choice.getD ⟨now, 0, 0⟩

/-! ## Requests -/

/-- A scheduled state. -/
structure PathUpdate where
  time : ℕ
  state : BitState

/-- `path_previous_time`, from the updates before the last one. -/
def pathPreviousTime (now : ℕ) : List PathUpdate → ℕ
  | [] => now
  | previous :: _ => previous.time

/-- `path_bit_schedule`. -/
def pathBitSchedule (context : PathContext) (now : ℕ) (current state : BitState) :
    List PathUpdate → Except String (List PathUpdate)
  | [] =>
    if state = current then .ok []
    else do
      let choice ← pathChoiceFor context now current state
      return [⟨choice.due, state⟩]
  | last :: rest =>
    if state = last.state then .ok (last :: rest)
    else do
      let onDetect := context.style.getD context.styleOnDetect
      let showCancelled := context.showCancelled.getD context.styleShowCancelled
      let choice ← pathChoiceFor context now last.state state
      let previous := pathPreviousTime now rest
      if choice.due ≤ last.time then
        if showCancelled ∧ (onDetect ∨ choice.due < last.time) then
          -- the interval that is cancelled shows as X
          let start := max (if onDetect then now else choice.due) previous
          let updates := ⟨start, .x⟩ :: rest
          return if state ≠ .x then ⟨last.time, state⟩ :: updates else updates
        else pathBitSchedule context now current state rest
      else if choice.due - last.time ≥ choice.reject then
        let error := choice.due - last.time < choice.error
        let start := if onDetect then max now previous else last.time
        let updates := if error then ⟨start, .x⟩ :: rest else last :: rest
        return if state ≠ .x ∨ ¬error then ⟨choice.due, state⟩ :: updates else updates
      else pathBitSchedule context now current state rest

/-! ## Histories -/

/-- The record of the bit, and the time. -/
structure PathBit where
  now : ℕ
  current : BitState
  updates : List PathUpdate

/-- What can happen to the bit: a state is requested, the next update is committed, time advances, or a force
or release publishes a state directly. -/
inductive PathCall
  | request (context : PathContext) (state : BitState)
  | commit
  | advance (time : ℕ)
  | publish (state : BitState)

/-- The scheduler commits an update at its time and never advances past one; a request that does not return
ends the program. -/
def PathBit.Can (b : PathBit) : PathCall → Prop
  | .request context state => ∃ updates, pathBitSchedule context b.now b.current state b.updates = .ok updates
  | .commit => ∃ next ∈ b.updates.getLast?, next.time = b.now
  | .advance time => b.now < time ∧ ∀ next ∈ b.updates.getLast?, time ≤ next.time
  | .publish _ => True

def PathBit.step (b : PathBit) : PathCall → PathBit
  | .request context state =>
    match pathBitSchedule context b.now b.current state b.updates with
    | .ok updates => { b with updates }
    | .error _ => b
  | .commit => { b with current := (b.updates.getLast?.map (·.state)).getD b.current, updates := b.updates.dropLast }
  | .advance time => { b with now := time }
  | .publish state => { b with current := state, updates := [] }

/-- The system of the bit. -/
def pathMachine : Machine PathBit PathCall Unit where
  can := PathBit.Can
  step b call := (b.step call, [])

/-- The state that a history asks for last. -/
def latestRequest (initial : BitState) (calls : List PathCall) : BitState :=
  calls.foldl (fun latest call =>
    match call with
    | .request _ state => state
    | .publish state => state
    | _ => latest) initial

/-- The state that the bit is scheduled to end in. -/
def PathBit.projected (b : PathBit) : BitState :=
  (b.updates.head?.map (·.state)).getD b.current

/-- Updates that are in the order of their times, none of them in the past. -/
structure Scheduled (now : ℕ) (updates : List PathUpdate) : Prop where
  sorted : updates.Pairwise fun later earlier => earlier.time ≤ later.time
  future : ∀ u ∈ updates, now ≤ u.time

section Requests

variable {context : PathContext} {now : ℕ} {current state : BitState} {updates out : List PathUpdate}

lemma pathChoose_due {transition : Fin 12} {choice : Option PathChoice}
    (h : pathChoose context now transition = .ok choice) : ∀ c ∈ choice, now ≤ c.due := by
  simp only [pathChoose] at h
  repeat' split at h
  all_goals cases h
  all_goals simp only [Option.mem_def, reduceCtorEq, false_implies, implies_true, Option.some.injEq,
    forall_eq']
  all_goals omega

/-- No update is due in the past. -/
lemma pathChoiceFor_due {projected : BitState} {choice : PathChoice}
    (h : pathChoiceFor context now projected state = .ok choice) : now ≤ choice.due := by
  rw [pathChoiceFor] at h
  split at h
  · cases h
    exact le_rfl
  · obtain ⟨c, hc, hret⟩ := bind_eq_ok h
    cases hret
    cases c with
    | none => exact le_rfl
    | some c => exact pathChoose_due hc c rfl

lemma Scheduled.tail {u : PathUpdate} (h : Scheduled now (u :: updates)) : Scheduled now updates :=
  ⟨h.sorted.of_cons, fun v hv => h.future v (mem_cons_of_mem _ hv)⟩

/-- An update may follow the others if it is due no earlier than the last of them. -/
lemma Scheduled.cons {u : PathUpdate} (h : Scheduled now updates)
    (hu : pathPreviousTime now updates ≤ u.time) : Scheduled now (u :: updates) := by
  cases updates with
  | nil => exact ⟨pairwise_singleton _ _, by simpa [pathPreviousTime] using hu⟩
  | cons last rest =>
    have hle : ∀ v ∈ last :: rest, v.time ≤ u.time := by
      intro v hv
      rcases mem_cons.1 hv with rfl | hv
      · exact hu
      · exact ((pairwise_cons.1 h.sorted).1 v hv).trans hu
    refine ⟨pairwise_cons.2 ⟨hle, h.sorted⟩, fun v hv => ?_⟩
    rcases mem_cons.1 hv with rfl | hv
    · exact (h.future last mem_cons_self).trans hu
    · exact h.future v hv

lemma Scheduled.previous_le {u : PathUpdate} (h : Scheduled now (u :: updates)) :
    pathPreviousTime now updates ≤ u.time := by
  cases updates with
  | nil => exact h.future u mem_cons_self
  | cons last => exact (pairwise_cons.1 h.sorted).1 last mem_cons_self

/-- A request leaves the updates in order, and ends them with the state requested. -/
lemma pathBitSchedule_spec (h : Scheduled now updates)
    (hrun : pathBitSchedule context now current state updates = .ok out) :
    Scheduled now out ∧ (out.head?.map (·.state)).getD current = state := by
  induction updates with
  | nil =>
    rw [pathBitSchedule] at hrun
    split_ifs at hrun with hstate
    · cases hrun
      exact ⟨h, hstate.symm⟩
    · obtain ⟨choice, hchoice, hret⟩ := bind_eq_ok hrun
      cases hret
      exact ⟨h.cons (pathChoiceFor_due hchoice), rfl⟩
  | cons last rest ih =>
    rw [pathBitSchedule] at hrun
    by_cases hstate : state = last.state
    · rw [if_pos hstate] at hrun
      cases hrun
      exact ⟨h, hstate.symm⟩
    rw [if_neg hstate] at hrun
    obtain ⟨choice, hchoice, hrest⟩ := bind_eq_ok hrun
    have hprevious := h.previous_le
    dsimp only at hrest
    generalize context.style.getD context.styleOnDetect = onDetect at hrest
    -- the update that the last one turns into, if it does
    have hlead : ∀ start, pathPreviousTime now rest ≤ start → Scheduled now (⟨start, .x⟩ :: rest) :=
      fun start hstart => h.tail.cons hstart
    by_cases hearly : choice.due ≤ last.time
    · rw [if_pos hearly] at hrest
      by_cases hshow : context.showCancelled.getD context.styleShowCancelled = true ∧
          (onDetect = true ∨ choice.due < last.time)
      · rw [if_pos hshow] at hrest
        cases hrest
        have hx := hlead _ (le_max_right (if onDetect = true then now else choice.due) _)
        by_cases hstate : state = .x
        · rw [if_neg (not_not.2 hstate)]
          exact ⟨hx, hstate.symm⟩
        · rw [if_pos hstate]
          refine ⟨hx.cons (max_le ?_ hprevious), rfl⟩
          have := h.future last mem_cons_self
          split_ifs <;> omega
      · rw [if_neg hshow] at hrest
        exact ih h.tail hrest
    · rw [if_neg hearly] at hrest
      by_cases hreject : choice.due - last.time ≥ choice.reject
      · rw [if_pos hreject] at hrest
        cases hrest
        by_cases herror : choice.due - last.time < choice.error
        · simp only [if_pos herror]
          have hstart : pathPreviousTime now rest ≤
              if onDetect = true then max now (pathPreviousTime now rest) else last.time := by
            split_ifs
            exacts [le_max_right .., hprevious]
          by_cases hstate : state = .x
          · rw [if_neg (by simp [hstate, herror])]
            exact ⟨hlead _ hstart, hstate.symm⟩
          · rw [if_pos (.inl hstate)]
            refine ⟨(hlead _ hstart).cons ?_, rfl⟩
            have hbefore : (if onDetect = true then max now (pathPreviousTime now rest) else last.time) ≤
                last.time := by
              split_ifs
              exacts [max_le (h.future last mem_cons_self) hprevious, le_rfl]
            exact hbefore.trans (Nat.le_of_lt (Nat.not_le.1 hearly))
        · rw [if_neg herror, if_pos (.inr herror)]
          exact ⟨h.cons (Nat.le_of_lt (Nat.not_le.1 hearly)), rfl⟩
      · rw [if_neg hreject] at hrest
        exact ih h.tail hrest

end Requests

/-! ## Whole histories -/

/-- The next update to be committed is the earliest. -/
lemma Scheduled.next_le {now : ℕ} {updates : List PathUpdate} (h : Scheduled now updates) {next : PathUpdate}
    (hnext : next ∈ updates.getLast?) : ∀ u ∈ updates, next.time ≤ u.time := by
  obtain ⟨rest, rfl⟩ := List.getLast?_eq_some_iff.1 hnext
  intro u hu
  rcases mem_append.1 hu with hu | hu
  · exact (pairwise_append.1 h.sorted).2.2 u hu next (mem_singleton_self _)
  · exact (mem_singleton.1 hu).symm ▸ le_rfl

variable {calls : List PathCall} {b : PathBit}

/-- What one call does to the updates. -/
lemma PathBit.step_spec {call : PathCall} (h : Scheduled b.now b.updates) (hcan : b.Can call) :
    Scheduled (b.step call).now (b.step call).updates ∧
      (b.step call).projected = latestRequest b.projected [call] := by
  cases call with
  | request =>
    obtain ⟨updates, hok⟩ := hcan
    simp only [PathBit.step, hok]
    exact pathBitSchedule_spec h hok
  | commit =>
    obtain ⟨next, hnext, -⟩ := hcan
    obtain ⟨rest, hrest⟩ := List.getLast?_eq_some_iff.1 hnext
    have hsplit : b.updates.dropLast = rest := by rw [hrest, dropLast_concat]
    refine ⟨⟨h.sorted.sublist (dropLast_sublist _),
      fun u hu => h.future u (dropLast_subset _ hu)⟩, ?_⟩
    rw [PathBit.projected, PathBit.projected, PathBit.step, hnext, hsplit, hrest]
    cases rest <;> rfl
  | advance =>
    refine ⟨⟨h.sorted, fun u hu => ?_⟩, rfl⟩
    cases hlast : b.updates.getLast? with
    | none => simp [List.getLast?_eq_none_iff.1 hlast, PathBit.step] at hu
    | some next => exact (hcan.2 next hlast).trans (h.next_le hlast u hu)
  | publish => exact ⟨⟨List.Pairwise.nil, by simp [PathBit.step]⟩, rfl⟩

lemma latestRequest_snoc (initial : BitState) (calls : List PathCall) (call : PathCall) :
    latestRequest initial (calls ++ [call]) = latestRequest (latestRequest initial calls) [call] :=
  foldl_append

/-- Updates are in order after every history, and end with the state that was asked for last. -/
lemma pathBit_invariant {t : PathBit} {events : List Unit}
    (hrun : pathMachine.Run b calls events t) (hb : Scheduled b.now b.updates) :
    Scheduled t.now t.updates ∧ t.projected = latestRequest b.projected calls := by
  induction hrun with
  | nil => exact ⟨hb, rfl⟩
  | snoc call _ hcan ih =>
    obtain ⟨hscheduled, hprojected⟩ := PathBit.step_spec ih.1 hcan
    exact ⟨hscheduled, by rw [latestRequest_snoc, ← ih.2]; exact hprojected⟩

/-- The calls of a history without requests. -/
def Quiet (calls : List PathCall) : Prop :=
  ∀ call ∈ calls, call = .commit ∨ ∃ time, call = .advance time

lemma Quiet.snoc (h : Quiet calls) {call : PathCall}
    (hcall : call = .commit ∨ ∃ time, call = .advance time) : Quiet (calls ++ [call]) := by
  intro c hc
  rcases mem_append.1 hc with hc | hc
  · exact h c hc
  · rwa [mem_singleton.1 hc]

/-- Without requests, updates are only taken away. -/
lemma quiet_run {t : PathBit} {events : List Unit}
    (hrun : pathMachine.Run b calls events t) (hquiet : Quiet calls) :
    t.updates ⊆ b.updates ∧ latestRequest b.projected calls = b.projected := by
  induction hrun with
  | nil => exact ⟨List.Subset.refl _, rfl⟩
  | snoc call _ _ ih =>
    obtain ⟨hsub, hlatest⟩ := ih fun c hc => hquiet c (mem_append_left _ hc)
    rw [latestRequest_snoc, hlatest]
    obtain rfl | ⟨time, rfl⟩ := hquiet call (mem_append_right _ (mem_singleton_self _))
    · exact ⟨List.Subset.trans (dropLast_subset _) hsub, rfl⟩
    · exact ⟨hsub, rfl⟩

/-- The scheduler can always commit every update. -/
lemma exists_quiet_run (hb : Scheduled b.now b.updates) (k : ℕ) :
    ∃ calls events t, pathMachine.Run b calls events t ∧ Quiet calls ∧
      t.updates.length = b.updates.length - k := by
  induction k with
  | zero => exact ⟨[], [], b, .nil, by simp [Quiet], rfl⟩
  | succ k ih =>
    obtain ⟨calls, events, t, hrun, hquiet, hlength⟩ := ih
    have ht := (pathBit_invariant hrun hb).1
    cases hlast : t.updates.getLast? with
    | none =>
      rw [List.getLast?_eq_none_iff.1 hlast, length_nil] at hlength
      refine ⟨calls, events, t, hrun, hquiet, ?_⟩
      rw [List.getLast?_eq_none_iff.1 hlast, length_nil]
      omega
    | some next =>
      have hdrop : t.updates.dropLast.length = b.updates.length - (k + 1) := by
        rw [length_dropLast, hlength]
        omega
      have hnow : t.now ≤ next.time := ht.future next (mem_of_getLast? hlast)
      -- time advances to the update, if it is not due already
      rcases hnow.eq_or_lt with hdue | hlater
      · have hcommit : pathMachine.can t .commit := ⟨next, hlast, hdue.symm⟩
        exact ⟨_, _, _, hrun.snoc _ hcommit, hquiet.snoc (.inl rfl), hdrop⟩
      · have hadvance : pathMachine.can t (.advance next.time) :=
          ⟨hlater, fun u hu => (Option.mem_unique hlast hu) ▸ le_rfl⟩
        have hcommit : pathMachine.can (t.step (.advance next.time)) .commit := ⟨next, hlast, rfl⟩
        exact ⟨_, _, _, (hrun.snoc _ hadvance).snoc _ hcommit,
          (hquiet.snoc (.inr ⟨_, rfl⟩)).snoc (.inl rfl), hdrop⟩

/-- After every history of a bit that starts without updates, the updates are in the order of their times, none
is in the past and the last one has the state requested last.  If no more requests come, the bit has that state
as soon as no update is left, which is when time has passed the last of them; and the scheduler can get
there. -/
theorem pathBit_settles {now : ℕ} {initial : BitState} {calls : List PathCall} {events : List Unit}
    {t : PathBit} (hrun : pathMachine.Run ⟨now, initial, []⟩ calls events t) :
    Scheduled t.now t.updates ∧ t.projected = latestRequest initial calls ∧
    (∀ more events' t', pathMachine.Run t more events' t' → Quiet more →
      (t'.updates = [] → t'.current = latestRequest initial calls) ∧
      ((∀ u ∈ t.updates, u.time < t'.now) → t'.updates = [])) ∧
    ∃ more events' t', pathMachine.Run t more events' t' ∧ Quiet more ∧ t'.updates = [] ∧
      t'.current = latestRequest initial calls := by
  obtain ⟨ht, hprojected⟩ := pathBit_invariant hrun ⟨List.Pairwise.nil, by simp⟩
  have hcurrent : ∀ more events' t', pathMachine.Run t more events' t' → Quiet more → t'.updates = [] →
      t'.current = latestRequest initial calls := by
    intro more events' t' hmore hquiet hnil
    have h := (pathBit_invariant hmore ht).2
    rw [(quiet_run hmore hquiet).2, hprojected, PathBit.projected, hnil] at h
    exact h
  refine ⟨ht, hprojected, fun more events' t' hmore hquiet => ⟨hcurrent more events' t' hmore hquiet, ?_⟩, ?_⟩
  · intro hpassed
    refine eq_nil_iff_forall_not_mem.2 fun u hu => ?_
    have hfuture := (pathBit_invariant hmore ht).1.future u hu
    exact absurd (hpassed u ((quiet_run hmore hquiet).1 hu)) (Nat.not_lt.2 hfuture)
  · obtain ⟨more, events', t', hmore, hquiet, hlength⟩ := exists_quiet_run ht t.updates.length
    have hnil : t'.updates = [] := length_eq_zero_iff.1 (by omega)
    exact ⟨more, events', t', hmore, hquiet, hnil, hcurrent more events' t' hmore hquiet hnil⟩

/-- One path with a delay of ten: pulses shorter than two are rejected, those shorter than six become X.
Its input changed last at `inputTime`. -/
def pulsePath (inputTime : ℕ) : PathContext :=
  ⟨[⟨true, true, inputTime, false, 0, fun _ => 10, some (fun _ => 2, fun _ => 6)⟩], 100, 100, none, none,
    false, false⟩

/-- A pulse of four becomes X, which is committed at time ten; the pulse of one that follows is rejected.
The bit still settles at the state requested last. -/
theorem pathBit_settles_pulses :
    ∃ events t, pathMachine.Run ⟨0, .zero, []⟩ [.request (pulsePath 0) .one, .advance 4,
        .request (pulsePath 4) .zero, .advance 10, .commit, .request (pulsePath 10) .one, .advance 11,
        .request (pulsePath 11) .zero] events t ∧
      t.current = .x ∧ (t.updates.map fun u => (u.time, u.state)) = [(14, .zero)] ∧
      ∃ more events' t', pathMachine.Run t more events' t' ∧ Quiet more ∧ t'.updates = [] ∧
        t'.current = .zero := by
  have hrun := (((Machine.Run.nil (M := pathMachine) (s := ⟨0, .zero, []⟩)).snoc
    (.request (pulsePath 0) .one) (by exact ⟨_, rfl⟩)).snoc
    (.advance 4) (by exact ⟨by decide, by rintro _ ⟨⟩; decide⟩)).snoc
    (.request (pulsePath 4) .zero) (by exact ⟨_, rfl⟩) |>.snoc
    (.advance 10) (by exact ⟨by decide, by rintro _ ⟨⟩; decide⟩) |>.snoc
    .commit (by exact ⟨_, rfl, rfl⟩) |>.snoc
    (.request (pulsePath 10) .one) (by exact ⟨_, rfl⟩) |>.snoc
    (.advance 11) (by exact ⟨by decide, by rintro _ ⟨⟩; decide⟩) |>.snoc
    (.request (pulsePath 11) .zero) (by exact ⟨_, rfl⟩)
  exact ⟨_, _, hrun, by decide, by decide, (pathBit_settles hrun).2.2.2⟩

end Lapligence.Scheduler
