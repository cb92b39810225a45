import Lapligence.Scheduler.MailboxBooks

/-!
# The calls of a mailbox

Every call of the code is a sequence of the actions of `Mailbox.Does` on its mailbox and leaves the
other mailboxes alone (`mailboxStep_goes`).  That no process waits which could proceed is not a
property of the actions but of the service at the end of a call (`mailboxService_quiet`).
-/

namespace Lapligence.Scheduler

open Function List MailboxState

variable {α : Type}

/-! ## The processes -/

/-- A process that waits is alive, has no message to store, and stands in the queue it waits in and
in no other. -/
structure MailboxState.Inv (s : MailboxState α) : Prop where
  alive : ∀ proc, s.wait proc ≠ none → s.killed proc = false
  stored : ∀ proc, s.wait proc ≠ none → s.delivery proc = none
  puts : ∀ mailbox, Linked s.wait (.put mailbox) ((s.mailboxes mailbox).puts.map PutWait.proc)
  gets : ∀ mailbox, Linked s.wait (.get mailbox) ((s.mailboxes mailbox).gets.map GetWait.proc)

lemma mailboxStart_inv (bound : ℕ → ℕ) (type : ℕ → MailboxType) :
    (mailboxStart (α := α) bound type).Inv :=
  ⟨fun _ h => absurd rfl h, fun _ h => absurd rfl h, fun _ => ⟨nodup_nil, by simp [mailboxStart]⟩,
    fun _ => ⟨nodup_nil, by simp [mailboxStart]⟩⟩

/-- Unlinking one process from a queue. -/
lemma map_unlink {β : Type} (f : β → ℕ) (proc : ℕ) (ws : List β) :
    (ws.eraseP fun w => f w = proc).map f = (ws.map f).erase proc := by
  rw [erase_eq_eraseP', eraseP_map]
  rfl

namespace MailboxState

variable {s t : MailboxState α} {mailbox proc : ℕ}

section

variable (s : MailboxState α) (mailbox : ℕ) (q : Mailbox α)

@[simp] lemma set_mailboxes : (s.set mailbox q).mailboxes = update s.mailboxes mailbox q := rfl

@[simp] lemma set_wait : (s.set mailbox q).wait = s.wait := rfl

@[simp] lemma set_delivery : (s.set mailbox q).delivery = s.delivery := rfl

@[simp] lemma set_killed : (s.set mailbox q).killed = s.killed := rfl

@[simp] lemma set_requests : (s.set mailbox q).requests = s.requests := rfl

@[simp] lemma set_finish : (s.set mailbox q).finish = s.finish := rfl

end

/-- The processes in the queue of a place. -/
def queue (s : MailboxState α) : MailboxWait → List ℕ
  | .put mailbox => (s.mailboxes mailbox).puts.map PutWait.proc
  | .get mailbox => (s.mailboxes mailbox).gets.map GetWait.proc

lemma inv_iff : s.Inv ↔ (∀ proc, s.wait proc ≠ none → s.killed proc = false ∧ s.delivery proc = none) ∧
    ∀ place, Linked s.wait place (s.queue place) := by
  constructor
  · refine fun h => ⟨fun proc hproc => ⟨h.alive proc hproc, h.stored proc hproc⟩, fun place => ?_⟩
    cases place with
    | put mailbox => exact h.puts mailbox
    | get mailbox => exact h.gets mailbox
  · rintro ⟨hprocs, hlinked⟩
    exact ⟨fun p hp => (hprocs p hp).1, fun p hp => (hprocs p hp).2, fun m => hlinked (.put m),
      fun m => hlinked (.get m)⟩

/-- The queues of waiting processes are all that matters to the invariant. -/
lemma Inv.congr (h : s.Inv) (hwait : t.wait = s.wait) (hdelivery : t.delivery = s.delivery)
    (hkilled : t.killed = s.killed) (hqueue : ∀ place, t.queue place = s.queue place) : t.Inv := by
  rw [inv_iff] at h ⊢
  simpa only [hwait, hdelivery, hkilled, hqueue] using h

/-- One mailbox changes. -/
lemma queue_set (q : Mailbox α) (place : MailboxWait) : (s.set mailbox q).queue place =
    match place with
    | .put m => if m = mailbox then q.puts.map PutWait.proc else s.queue place
    | .get m => if m = mailbox then q.gets.map GetWait.proc else s.queue place := by
  cases place <;>
  · simp only [queue, set_mailboxes, update_apply]
    split_ifs <;> rfl

/-- Only the messages of a mailbox change. -/
lemma Inv.set_messages (h : s.Inv) (mailbox : ℕ) (messages : List (MailboxMessage α)) :
    (s.set mailbox { s.mailboxes mailbox with messages := messages }).Inv := by
  refine h.congr rfl rfl rfl fun place => ?_
  rw [queue_set]
  cases place <;> simp +contextual [queue]

/-- A running process blocks. -/
lemma Inv.block (h : s.Inv) {place : MailboxWait} (hruns : s.Runs proc)
    (hwait : t.wait = update s.wait proc (some place)) (hdelivery : t.delivery = s.delivery)
    (hkilled : t.killed = s.killed)
    (hqueue : ∀ other, t.queue other = if other = place then s.queue place ++ [proc] else s.queue other) :
    t.Inv := by
  obtain ⟨hnone, hruns⟩ := hruns
  rw [inv_iff] at h ⊢
  rw [hwait, hdelivery, hkilled]
  refine ⟨fun p hp => ?_, fun other => ?_⟩
  · by_cases hpp : p = proc
    · exact hpp ▸ hruns
    · exact h.1 p (by rwa [update_of_ne hpp] at hp)
  · rw [hqueue]
    split_ifs with hother
    · exact hother ▸ (h.2 place).join hnone
    · exact (h.2 other).join_other hnone (Ne.symm hother)

lemma Inv.blockPut (h : s.Inv) {wait : PutWait α} (hruns : s.Runs wait.proc) :
    (s.blockPut mailbox wait).Inv := by
  refine h.block hruns rfl rfl rfl fun other => (queue_set _ other).trans ?_
  cases other <;> simp +contextual [queue]

lemma Inv.blockGet (h : s.Inv) {wait : GetWait} (hruns : s.Runs wait.proc) :
    (s.blockGet mailbox wait).Inv := by
  refine h.block hruns rfl rfl rfl fun other => (queue_set _ other).trans ?_
  cases other <;> simp +contextual [queue]

/-- The queues of a mailbox after a process has left. -/
lemma removeAndWake_mailboxes (s : MailboxState α) (proc m : ℕ) :
    (s.removeAndWake proc).mailboxes m = { s.mailboxes m with
      puts := if s.wait proc = some (.put m) then
        (s.mailboxes m).puts.eraseP fun w => w.proc = proc else (s.mailboxes m).puts
      gets := if s.wait proc = some (.get m) then
        (s.mailboxes m).gets.eraseP fun w => w.proc = proc else (s.mailboxes m).gets } := by
  simp only [removeAndWake, unlinkWait]
  rcases s.wait proc with _ | ⟨mailbox⟩ | ⟨mailbox⟩
  · simp
  all_goals
    simp only [set_mailboxes, Option.some.injEq, MailboxWait.put.injEq, MailboxWait.get.injEq,
      reduceCtorEq, if_false]
    by_cases hm : m = mailbox
    · subst hm
      rw [update_self, if_pos rfl]
    · rw [update_of_ne hm, if_neg (Ne.symm hm)]

/-- A process leaves the queue it waits in; what was left with it or done to it just before may break
the invariant for this process only. -/
lemma removeAndWake_inv
    (hprocs : ∀ p, p ≠ proc → s.wait p ≠ none → s.killed p = false ∧ s.delivery p = none)
    (hlinked : ∀ place, Linked s.wait place (s.queue place)) : (s.removeAndWake proc).Inv := by
  have hunlink : (s.removeAndWake proc).killed = s.killed ∧
      (s.removeAndWake proc).delivery = s.delivery := by
    simp only [removeAndWake, unlinkWait]
    rcases s.wait proc with _ | ⟨mailbox⟩ | ⟨mailbox⟩ <;> exact ⟨rfl, rfl⟩
  have hwait : (s.removeAndWake proc).wait = update s.wait proc none := rfl
  rw [inv_iff, hunlink.1, hunlink.2, hwait]
  refine ⟨fun p hp => ?_, fun place => ?_⟩
  · have hne : p ≠ proc := fun he => hp (by rw [he, update_self])
    exact hprocs p hne (by rwa [update_of_ne hne] at hp)
  · have hqueue : (s.removeAndWake proc).queue place =
        if s.wait proc = some place then (s.queue place).erase proc else s.queue place := by
      cases place <;>
      · simp only [queue, removeAndWake_mailboxes]
        split_ifs
        · exact map_unlink _ proc _
        · rfl
    rw [hqueue]
    split_ifs with hp
    · exact (hlinked place).leave proc
    · exact (hlinked place).leave_other hp

/-! ### Service -/

lemma Inv.take (h : s.Inv) (mailbox : ℕ) (peek : Bool) : (s.take mailbox peek).Inv := by
  rw [MailboxState.take]
  split_ifs
  · exact h
  · exact h.set_messages mailbox _

lemma take_mailboxes (peek : Bool) {message : MailboxMessage α} {rest : List (MailboxMessage α)}
    (hmessages : (s.mailboxes mailbox).messages = message :: rest) :
    (s.take mailbox peek).mailboxes = update s.mailboxes mailbox
      { s.mailboxes mailbox with
        messages := if peek then (s.mailboxes mailbox).messages else rest } := by
  rw [take]
  split_ifs
  · exact (update_eq_self mailbox s.mailboxes).symm
  · rw [set_mailboxes, hmessages, tail_cons]

/-- The head of the blocked gets is served: it leaves its queue, and its message the mailbox unless
it is only looked at. -/
lemma serveGet_mailboxes (h : s.Inv) {get : GetWait} {gets : List GetWait}
    {message : MailboxMessage α} {rest : List (MailboxMessage α)}
    (hgets : (s.mailboxes mailbox).gets = get :: gets)
    (hmessages : (s.mailboxes mailbox).messages = message :: rest) :
    (s.serveGet mailbox get message).mailboxes = update s.mailboxes mailbox
      { s.mailboxes mailbox with
        messages := if get.peek then (s.mailboxes mailbox).messages else rest, gets := gets } := by
  have hwait : s.wait get.proc = some (.get mailbox) :=
    ((h.gets mailbox).mem_iff get.proc).1 (by rw [hgets]; exact mem_cons_self)
  have hwait' : (s.take mailbox get.peek).wait = s.wait := by
    rw [take]
    split_ifs <;> rfl
  -- where the message is kept does not matter to the mailboxes
  obtain ⟨s₁, hs₁, hmailboxes, hw₁⟩ : ∃ s₁ : MailboxState α,
      s.serveGet mailbox get message = s₁.removeAndWake get.proc ∧
      s₁.mailboxes = (s.take mailbox get.peek).mailboxes ∧ s₁.wait = s.wait := by
    refine ⟨_, rfl, ?_, ?_⟩
    · split_ifs <;> rfl
    · split_ifs <;> exact hwait'
  funext m
  rw [hs₁, removeAndWake_mailboxes, hmailboxes, hw₁, hwait, take_mailboxes get.peek hmessages]
  by_cases hm : m = mailbox
  · subst hm
    simp [hgets]
  · simp [update_of_ne hm, Ne.symm hm]

lemma serveGet_inv (h : s.Inv) (get : GetWait) (message : MailboxMessage α) :
    (s.serveGet mailbox get message).Inv := by
  obtain ⟨hprocs, hlinked⟩ := inv_iff.1 (h.take mailbox get.peek)
  rw [serveGet]
  refine removeAndWake_inv (fun p hp hwait => ?_) fun place => ?_
  · split_ifs at hwait ⊢
    · exact hprocs p hwait
    · exact ⟨(hprocs p hwait).1, (update_of_ne hp _ _).trans (hprocs p hwait).2⟩
  · split_ifs <;> exact hlinked place

/-- The head of the blocked puts is served. -/
lemma servePut_mailboxes (h : s.Inv) {put : PutWait α} {puts : List (PutWait α)}
    (hputs : (s.mailboxes mailbox).puts = put :: puts) :
    (s.servePut mailbox put).mailboxes = update s.mailboxes mailbox
      { s.mailboxes mailbox with
        messages := (s.mailboxes mailbox).messages ++ [put.message], puts := puts } := by
  have hwait : s.wait put.proc = some (.put mailbox) :=
    ((h.puts mailbox).mem_iff put.proc).1 (by rw [hputs]; exact mem_cons_self)
  funext m
  rw [servePut, removeAndWake_mailboxes]
  simp only [append, set_mailboxes, set_wait, hwait]
  by_cases hm : m = mailbox
  · subst hm
    simp [hputs]
  · simp [update_of_ne hm, Ne.symm hm]

lemma servePut_inv (h : s.Inv) (put : PutWait α) : (s.servePut mailbox put).Inv := by
  obtain ⟨hprocs, hlinked⟩ := inv_iff.1 (h.set_messages mailbox _)
  exact removeAndWake_inv (fun p _ => hprocs p) hlinked

end MailboxState

/-- The actions on a mailbox among some events. -/
def actionsOn (mailbox : ℕ) (events : List (MailboxEvent α)) : List (MailboxAction α) :=
  events.filterMap fun
    | .on target action => if target = mailbox then some action else none
    | _ => none

lemma actionsOn_append (mailbox : ℕ) (events events' : List (MailboxEvent α)) :
    actionsOn mailbox (events ++ events') = actionsOn mailbox events ++ actionsOn mailbox events' :=
  filterMap_append

@[simp] lemma actionsOn_nil (mailbox : ℕ) : actionsOn mailbox ([] : List (MailboxEvent α)) = [] := rfl

@[simp] lemma actionsOn_cons_self (mailbox : ℕ) (action : MailboxAction α)
    (events : List (MailboxEvent α)) :
    actionsOn mailbox (.on mailbox action :: events) = action :: actionsOn mailbox events := by
  simp [actionsOn]

@[simp] lemma actionsOn_cons_of_ne {mailbox target : ℕ} (h : target ≠ mailbox)
    (action : MailboxAction α) (events : List (MailboxEvent α)) :
    actionsOn mailbox (.on target action :: events) = actionsOn mailbox events := by
  simp [actionsOn, h]

/-- No process that waits could proceed. -/
def Mailbox.Quiet (q : Mailbox α) : Prop :=
  (q.gets ≠ [] → q.messages = []) ∧ (q.puts ≠ [] → ¬ q.Room)

/-- What the service of a mailbox does to it and leaves alone. -/
structure MailboxState.Serves (s : MailboxState α) (mailbox : ℕ)
    (result : MailboxState α × List (MailboxEvent α)) : Prop where
  inv : result.1.Inv
  requests : result.1.requests = s.requests
  finish : result.1.finish = false → s.finish = false
  others : ∀ m, m ≠ mailbox →
    result.1.mailboxes m = s.mailboxes m ∧ actionsOn m result.2 = []
  trace : ∀ n, (s.mailboxes mailbox).Trace n (actionsOn mailbox result.2)
    (result.1.mailboxes mailbox) n

namespace MailboxState.Serves

variable {s t : MailboxState α} {mailbox : ℕ} {result : MailboxState α × List (MailboxEvent α)}

/-- Nothing happens. -/
lemma same (h : s.Inv) : s.Serves mailbox (s, []) :=
  ⟨h, rfl, id, fun _ _ => ⟨rfl, rfl⟩, fun _ => .nil _ (le_refl _)⟩

lemma fail (h : s.Inv) (text : String) : s.Serves mailbox (s.fail text) :=
  ⟨h.congr rfl rfl rfl fun _ => rfl, rfl, fun hf => by simp [MailboxState.fail] at hf,
    fun _ _ => ⟨rfl, rfl⟩, fun _ => .nil _ (le_refl _)⟩

/-- One turn of the loop, then the rest. -/
lemma turn {q : Mailbox α} {action : MailboxAction α}
    (hmailboxes : t.mailboxes = update s.mailboxes mailbox q)
    (hrequests : t.requests = s.requests) (hfinish : t.finish = s.finish)
    (hdoes : ∀ n, (s.mailboxes mailbox).Does n action q n) (h : t.Serves mailbox result) :
    s.Serves mailbox (MailboxEvent.andThen (.on mailbox action) result) := by
  refine ⟨h.inv, h.requests.trans hrequests, fun hf => hfinish ▸ h.finish hf, fun m hm => ?_,
    fun n => ?_⟩
  · obtain ⟨hq, hactions⟩ := h.others m hm
    refine ⟨?_, (actionsOn_cons_of_ne (Ne.symm hm) action result.2).trans hactions⟩
    change result.1.mailboxes m = _
    rw [hq, hmailboxes, update_of_ne hm]
  · have htrace := h.trace n
    rw [hmailboxes, update_self] at htrace
    rw [MailboxEvent.andThen, actionsOn_cons_self]
    exact .cons (hdoes n) htrace

end MailboxState.Serves

section Service

variable {s : MailboxState α}

lemma removeAndWake_frame (s : MailboxState α) (proc : ℕ) :
    (s.removeAndWake proc).requests = s.requests ∧ (s.removeAndWake proc).finish = s.finish := by
  simp only [MailboxState.removeAndWake, MailboxState.unlinkWait]
  rcases s.wait proc with _ | ⟨mailbox⟩ | ⟨mailbox⟩ <;> exact ⟨rfl, rfl⟩

lemma take_frame (s : MailboxState α) (mailbox : ℕ) (peek : Bool) :
    (s.take mailbox peek).requests = s.requests ∧ (s.take mailbox peek).finish = s.finish := by
  rw [MailboxState.take]
  split_ifs <;> exact ⟨rfl, rfl⟩

lemma serveGet_frame (s : MailboxState α) (mailbox : ℕ) (get : GetWait)
    (message : MailboxMessage α) : (s.serveGet mailbox get message).requests = s.requests ∧
      (s.serveGet mailbox get message).finish = s.finish := by
  rw [serveGet, (removeAndWake_frame _ _).1, (removeAndWake_frame _ _).2]
  split_ifs <;> exact take_frame s mailbox get.peek

lemma servePut_frame (s : MailboxState α) (mailbox : ℕ) (put : PutWait α) :
    (s.servePut mailbox put).requests = s.requests ∧
      (s.servePut mailbox put).finish = s.finish :=
  removeAndWake_frame _ _

/-- What a turn of the service loop can do. -/
inductive MailboxTurn (s : MailboxState α) (mailbox fuel : ℕ) :
    MailboxState α × List (MailboxEvent α) → Prop
  | finished : s.finish = true → MailboxTurn s mailbox fuel (s, [])
  | quiet : (s.mailboxes mailbox).Quiet → MailboxTurn s mailbox fuel (s, [])
  | mismatch (message : MailboxMessage α) (get : GetWait) :
      message ∈ (s.mailboxes mailbox).messages → get ∈ (s.mailboxes mailbox).gets →
      mailboxTargetMatches message.type get.target = false →
      MailboxTurn s mailbox fuel (s.fail "llg: mailbox retrieval type mismatch")
  | serveGet (message : MailboxMessage α) (rest : List (MailboxMessage α)) (get : GetWait)
      (gets : List GetWait) : (s.mailboxes mailbox).messages = message :: rest →
      (s.mailboxes mailbox).gets = get :: gets →
      MailboxTurn s mailbox fuel (MailboxEvent.andThen (.on mailbox (.servedGet get message))
        (mailboxServiceWaiters mailbox fuel (s.serveGet mailbox get message)))
  | servePut (put : PutWait α) (puts : List (PutWait α)) :
      (s.mailboxes mailbox).puts = put :: puts → (s.mailboxes mailbox).Room →
      MailboxTurn s mailbox fuel (MailboxEvent.andThen (.on mailbox (.servedPut put))
        (mailboxServiceWaiters mailbox fuel (s.servePut mailbox put)))

lemma mailboxService_turn (s : MailboxState α) (mailbox fuel : ℕ) :
    MailboxTurn s mailbox fuel (mailboxServiceWaiters mailbox (fuel + 1) s) := by
  rw [mailboxServiceWaiters]
  by_cases hfinish : s.finish
  · rw [if_pos hfinish]
    exact .finished hfinish
  rw [if_neg hfinish]
  split
  next message rest get gets hm hg =>
    split_ifs with hmatch
    · exact .serveGet message rest get gets hm hg
    · refine .mismatch message get ?_ ?_ (by simpa using hmatch)
      · rw [hm]
        exact mem_cons_self
      · rw [hg]
        exact mem_cons_self
  next hget =>
    -- no get can be served, so a put may
    have hquiet : (s.mailboxes mailbox).gets ≠ [] → (s.mailboxes mailbox).messages = [] := by
      intro hgets
      by_contra hmessages
      obtain ⟨message, rest, hm⟩ := exists_cons_of_ne_nil hmessages
      obtain ⟨get, gets, hg⟩ := exists_cons_of_ne_nil hgets
      exact hget message rest get gets hm hg
    split
    next put puts hp =>
      split_ifs with hroom
      · exact .servePut put puts hp hroom
      · exact .quiet ⟨hquiet, fun _ => hroom⟩
    next hp => exact .quiet ⟨hquiet, fun hne => absurd hp hne⟩

/-- The service is a sequence of actions on its mailbox. -/
lemma mailboxService_serves (mailbox fuel : ℕ) (h : s.Inv) :
    s.Serves mailbox (mailboxServiceWaiters mailbox fuel s) := by
  induction fuel generalizing s with
  | zero => exact .same h
  | succ fuel ih =>
    have hturn := mailboxService_turn s mailbox fuel
    generalize mailboxServiceWaiters mailbox (fuel + 1) s = result at hturn
    cases hturn with
    | finished | quiet => exact .same h
    | mismatch => exact .fail h _
    | serveGet message rest get gets hmessages hgets =>
      obtain ⟨hrequests, hfinish⟩ := serveGet_frame s mailbox get message
      exact .turn (serveGet_mailboxes h hgets hmessages) hrequests hfinish
        (fun n => .servedGet get gets message rest hgets hmessages)
        (ih (serveGet_inv h get message))
    | servePut put puts hputs hroom =>
      obtain ⟨hrequests, hfinish⟩ := servePut_frame s mailbox put
      exact .turn (servePut_mailboxes h hputs) hrequests hfinish
        (fun n => .servedPut put puts hputs hroom) (ih (servePut_inv h put))

/-- The service ends when no process that waits can proceed: each turn removes one, so there is fuel
enough. -/
lemma mailboxService_quiet (mailbox fuel : ℕ) (h : s.Inv)
    (hfuel : (s.mailboxes mailbox).waiters ≤ fuel)
    (hfinish : (mailboxServiceWaiters mailbox fuel s).1.finish = false) :
    ((mailboxServiceWaiters mailbox fuel s).1.mailboxes mailbox).Quiet := by
  induction fuel generalizing s with
  | zero =>
    obtain ⟨hputs, hgets⟩ := Nat.add_eq_zero_iff.1 (Nat.le_zero.1 hfuel)
    exact ⟨fun hne => absurd (length_eq_zero_iff.1 hgets) hne,
      fun hne => absurd (length_eq_zero_iff.1 hputs) hne⟩
  | succ fuel ih =>
    have hturn := mailboxService_turn s mailbox fuel
    generalize mailboxServiceWaiters mailbox (fuel + 1) s = result at hturn hfinish
    cases hturn with
    | finished hf => simp [hf] at hfinish
    | quiet hquiet => exact hquiet
    | mismatch => simp [fail] at hfinish
    | serveGet message rest get gets hmessages hgets =>
      refine ih (serveGet_inv h get message) ?_ hfinish
      rw [serveGet_mailboxes h hgets hmessages, update_self]
      simp only [Mailbox.waiters, hgets, length_cons] at hfuel ⊢
      omega
    | servePut put puts hputs =>
      refine ih (servePut_inv h put) ?_ hfinish
      rw [servePut_mailboxes h hputs, update_self]
      simp only [Mailbox.waiters, hputs, length_cons] at hfuel ⊢
      omega

end Service

/-! ## Calls -/

/-- What a call leads to that was given the number `n`. -/
structure MailboxState.Goes (s : MailboxState α) (n : ℕ)
    (result : MailboxState α × List (MailboxEvent α)) : Prop where
  inv : result.1.Inv
  requests : result.1.requests = n + 1
  finish : result.1.finish = false → s.finish = false
  trace : ∀ m, (s.mailboxes m).Trace n (actionsOn m result.2) (result.1.mailboxes m) (n + 1)
  quiet : result.1.finish = false → (∀ m, (s.mailboxes m).Quiet) →
    ∀ m, (result.1.mailboxes m).Quiet

namespace MailboxState.Goes

variable {s t : MailboxState α} {n mailbox : ℕ} {events : List (MailboxEvent α)}

/-- Nothing happens to the mailboxes. -/
lemma same (h : t.Inv) (hn : t.requests = n + 1) (hmailboxes : t.mailboxes = s.mailboxes)
    (hfinish : t.finish = false → s.finish = false) (hevents : ∀ m, actionsOn m events = []) :
    s.Goes n (t, events) := by
  refine ⟨h, hn, hfinish, fun m => ?_, fun _ hq m => ?_⟩
  · rw [hevents m, hmailboxes]
    exact .nil _ (Nat.le_succ n)
  · rw [hmailboxes]
    exact hq m

lemma fail (h : s.Inv) (hn : s.requests = n + 1) (text : String) : s.Goes n (s.fail text) :=
  same (h.congr rfl rfl rfl fun _ => rfl) hn rfl
    (fun hf => by simp at hf) fun _ => rfl

variable {q : Mailbox α} {action : MailboxAction α} {n' : ℕ} (h : t.Inv) (hn : t.requests = n + 1)
  (hmailboxes : t.mailboxes = update s.mailboxes mailbox q) (hfinish : t.finish = s.finish)
  (hn' : n' ≤ n + 1) (hdoes : (s.mailboxes mailbox).Does n action q n')

include h hn hmailboxes hfinish hn' hdoes

/-- One action, after which the mailbox is quiet if it was. -/
lemma act (hquiet : (s.mailboxes mailbox).Quiet → q.Quiet) : s.Goes n (t, [.on mailbox action]) := by
  refine ⟨h, hn, fun hf => hfinish ▸ hf, fun m => ?_, fun _ hq m => ?_⟩
  · rw [hmailboxes]
    by_cases hm : m = mailbox
    · subst hm
      rw [update_self, actionsOn_cons_self]
      exact .cons hdoes (.nil _ hn')
    · rw [update_of_ne hm, actionsOn_cons_of_ne (Ne.symm hm)]
      exact .nil _ (Nat.le_succ n)
  · rw [hmailboxes]
    by_cases hm : m = mailbox
    · subst hm
      rw [update_self]
      exact hquiet (hq m)
    · rw [update_of_ne hm]
      exact hq m

/-- One action and the service after it. -/
lemma service : s.Goes n (t.service mailbox action) := by
  have hserves := mailboxService_serves mailbox (t.mailboxes mailbox).waiters h
  have hquiet := mailboxService_quiet mailbox _ h (le_refl _)
  rw [MailboxState.service, MailboxEvent.andThen]
  generalize mailboxServiceWaiters mailbox (t.mailboxes mailbox).waiters t = result at *
  refine ⟨hserves.inv, hserves.requests.trans hn, fun hf => hfinish ▸ hserves.finish hf,
    fun m => ?_, fun hf hq m => ?_⟩
  · by_cases hm : m = mailbox
    · subst hm
      have htrace := hserves.trace n'
      rw [hmailboxes, update_self] at htrace
      rw [actionsOn_cons_self]
      exact .cons hdoes (htrace.mono hn')
    · obtain ⟨hother, hactions⟩ := hserves.others m hm
      rw [actionsOn_cons_of_ne (Ne.symm hm), hactions, hother, hmailboxes, update_of_ne hm]
      exact .nil _ (Nat.le_succ n)
  · by_cases hm : m = mailbox
    · subst hm
      exact hquiet hf
    · rw [(hserves.others m hm).1, hmailboxes, update_of_ne hm]
      exact hq m

end MailboxState.Goes

section Calls

variable {s : MailboxState α} {n : ℕ}

/-- A process that leaves its queue changes only the mailbox it waits at. -/
lemma removeAndWake_goes {t : MailboxState α} {proc mailbox : ℕ} (hinv : (t.removeAndWake proc).Inv)
    (hn : t.requests = n + 1) (hmailboxes : t.mailboxes = s.mailboxes) (hfinish : t.finish = s.finish)
    (hwait : ∀ m, (t.wait proc = some (.put m) ∨ t.wait proc = some (.get m)) → m = mailbox) :
    s.Goes n (t.removeAndWake proc, [.on mailbox (.left proc)]) := by
  obtain ⟨hrequests, hfin⟩ := removeAndWake_frame t proc
  have hq := removeAndWake_mailboxes t proc
  rw [hmailboxes] at hq
  obtain ⟨puts, gets, ⟨hputs, hgets⟩, hupdate⟩ : ∃ puts gets,
      (puts.Sublist (s.mailboxes mailbox).puts ∧ gets.Sublist (s.mailboxes mailbox).gets) ∧
      (t.removeAndWake proc).mailboxes = update s.mailboxes mailbox
        { s.mailboxes mailbox with puts := puts, gets := gets } := by
    refine ⟨((t.removeAndWake proc).mailboxes mailbox).puts,
      ((t.removeAndWake proc).mailboxes mailbox).gets, ?_, funext fun m => ?_⟩
    · rw [hq]
      constructor <;>
      · dsimp only
        split_ifs
        · exact eraseP_sublist
        · exact List.Sublist.refl _
    · by_cases hm : m = mailbox
      · rw [hm, update_self, hq]
      · rw [update_of_ne hm, hq, if_neg fun hput => hm (hwait m (.inl hput)),
          if_neg fun hget => hm (hwait m (.inr hget))]
  refine .act hinv (hrequests.trans hn) hupdate (hfin.trans hfinish) (Nat.le_succ n)
    (.left proc puts gets hputs hgets) fun hquiet => ⟨fun hne => hquiet.1 ?_, fun hne => hquiet.2 ?_⟩
  · exact fun hnil => hne (sublist_nil.1 (hnil ▸ hgets))
  · exact fun hnil => hne (sublist_nil.1 (hnil ▸ hputs))

variable (h : s.Inv) (hn : s.requests = n + 1)
include h hn

variable {message : MailboxMessage α}

/-- A message is accepted. -/
lemma append_goes {mailbox : ℕ} (hnumber : message.number = n) (hroom : (s.mailboxes mailbox).Room) :
    s.Goes n ((s.append mailbox message).service mailbox (.accepted message)) :=
  .service (h.set_messages mailbox _) hn rfl rfl (le_refl _)
    (.accepted message (n + 1) hroom (le_of_eq hnumber.symm) (by omega))

lemma put_goes (readOnly : Option String)
    (self mailbox : Option ℕ) (hruns : ∀ proc, self = some proc → s.Runs proc)
    (hnumber : message.number = n) :
    s.Goes n (llgArmMailboxPutValue s readOnly self mailbox message) := by
  rcases mailbox with _ | mailbox
  · exact .fail h hn _
  simp only [llgArmMailboxPutValue]
  split_ifs with hkind hroom
  · exact append_goes h hn hnumber hroom
  · rcases self with _ | proc
    · exact .same h hn rfl id fun _ => rfl
    rcases readOnly with _ | region
    · refine .act (h.blockPut (hruns proc rfl)) hn rfl rfl (le_refl _)
        (.blockedPut ⟨proc, message⟩ (n + 1) (le_of_eq hnumber.symm) ?_) fun hq => ?_
      · exact Nat.lt_succ_of_le (le_of_eq hnumber)
      · exact ⟨hq.1, fun _ => hroom⟩
    · exact .fail h hn _
  · exact .fail h hn _

lemma tryPut_goes (mailbox : Option ℕ) (hnumber : message.number = n) :
    s.Goes n (llgMailboxTryPutValue s mailbox message) := by
  rcases mailbox with _ | mailbox
  · exact .fail h hn _
  simp only [llgMailboxTryPutValue]
  split_ifs with hkind hroom
  · exact append_goes h hn hnumber hroom
  · exact .same h hn rfl id fun _ => rfl
  · exact .same h hn rfl id fun _ => rfl

/-- The outcomes of `mailbox_take_value`. -/
lemma takeValue_cases (mailbox : ℕ) (target : MailboxTarget) (peek : Bool) :
    (mailboxTakeValue s mailbox target peek = .empty ∧ (s.mailboxes mailbox).messages = []) ∨
    mailboxTakeValue s mailbox target peek = .mismatch ∨
    ∃ result, mailboxTakeValue s mailbox target peek = .taken result ∧ s.Goes n result := by
  rw [mailboxTakeValue]
  rcases hmessages : (s.mailboxes mailbox).messages with _ | ⟨message, rest⟩
  · exact .inl ⟨rfl, rfl⟩
  · dsimp only
    split_ifs
    · refine .inr (.inr ⟨_, rfl, ?_⟩)
      obtain ⟨hrequests, hfinish⟩ := take_frame s mailbox peek
      exact .service (h.take mailbox peek) (hrequests.trans hn)
        (take_mailboxes peek hmessages) hfinish (Nat.le_succ n)
        (.retrieved peek message rest hmessages)
    · exact .inr (.inl rfl)

lemma get_goes (readOnly : Option String)
    (self mailbox : Option ℕ) (hruns : ∀ proc, self = some proc → s.Runs proc)
    (target : MailboxTarget) (peek : Bool) :
    s.Goes n (llgArmMailboxGetValue s n readOnly self mailbox target peek) := by
  rcases mailbox with _ | mailbox
  · exact .fail h hn _
  simp only [llgArmMailboxGetValue]
  obtain ⟨htake, hempty⟩ | htake | ⟨result, htake, hgoes⟩ := takeValue_cases h hn mailbox target peek
  · rw [htake]
    rcases self with _ | proc
    · exact .same h hn rfl id fun _ => rfl
    rcases readOnly with _ | region
    · exact .act (h.blockGet (hruns proc rfl)) hn rfl rfl (le_refl _)
        (.blockedGet ⟨n, proc, target, peek⟩ (n + 1) (le_refl n) (Nat.lt_succ_self n))
        fun hq => ⟨fun _ => hempty, hq.2⟩
    · exact .fail h hn _
  · rw [htake]
    exact .fail h hn _
  · rw [htake]
    exact hgoes

lemma tryGet_goes (mailbox : Option ℕ) (target : MailboxTarget) (peek : Bool) :
    s.Goes n (llgMailboxTryGetValue s mailbox target peek) := by
  rcases mailbox with _ | mailbox
  · exact .fail h hn _
  simp only [llgMailboxTryGetValue]
  obtain ⟨htake, -⟩ | htake | ⟨result, htake, hgoes⟩ := takeValue_cases h hn mailbox target peek
  · rw [htake]
    exact .same h hn rfl id fun _ => rfl
  · rw [htake]
    exact .same h hn rfl id fun _ => rfl
  · rw [htake]
    exact hgoes

lemma deliveryTake_goes (proc : ℕ) : s.Goes n (llgMailboxDeliveryTake s proc) := by
  rw [llgMailboxDeliveryTake]
  rcases s.delivery proc with _ | message
  · exact .same h hn rfl id fun _ => rfl
  · refine .same ⟨h.alive, fun p hp => ?_, h.puts, h.gets⟩ hn rfl id fun _ => rfl
    dsimp only
    by_cases hpp : p = proc
    · rw [hpp, update_self]
    · rw [update_of_ne hpp]
      exact h.stored p hp

lemma kill_goes (proc : ℕ) : s.Goes n (s.llgKillProc proc) := by
  obtain ⟨hold, hlinked⟩ := inv_iff.1 h
  have hprocs : ∀ p, p ≠ proc → s.wait p ≠ none → update s.killed proc true p = false ∧
      update s.delivery proc none p = none := by
    intro p hp hw
    rw [update_of_ne hp, update_of_ne hp]
    exact hold p hw
  rw [llgKillProc]
  split_ifs
  · exact .same h hn rfl id fun _ => rfl
  dsimp only
  rcases hwait : s.wait proc with _ | ⟨mailbox⟩ | ⟨mailbox⟩
  · have hne : ∀ p, s.wait p ≠ none → p ≠ proc := fun p hp he => hp (he ▸ hwait)
    exact .same (inv_iff.2 ⟨fun p hp => hprocs p (hne p hp) hp, hlinked⟩) hn rfl id fun _ => rfl
  · exact removeAndWake_goes (removeAndWake_inv hprocs hlinked) hn rfl rfl (by simp [hwait])
  · exact removeAndWake_goes (removeAndWake_inv hprocs hlinked) hn rfl rfl (by simp [hwait])

omit hn in
/-- Every call is a sequence of actions on mailboxes and keeps the invariant. -/
lemma mailboxStep_goes {call : MailboxCall α} (hcan : s.Can call) :
    s.Goes s.requests (mailboxStep s call) := by
  have h' : MailboxState.Inv { s with requests := s.requests + 1 } :=
    h.congr rfl rfl rfl fun _ => rfl
  obtain ⟨hinv, hrequests, hfinish, htrace, hquiet⟩ :
      MailboxState.Goes { s with requests := s.requests + 1 } s.requests (mailboxStep s call) := by
    cases call with
    | put readOnly self mailbox =>
      exact put_goes h' rfl readOnly self mailbox (fun proc hself => by subst hself; exact hcan) rfl
    | tryPut mailbox => exact tryPut_goes h' rfl mailbox rfl
    | get readOnly self mailbox target peek =>
      exact get_goes h' rfl readOnly self mailbox (fun proc hself => by subst hself; exact hcan)
        target peek
    | tryGet mailbox target peek => exact tryGet_goes h' rfl mailbox target peek
    | deliveryTake proc => exact deliveryTake_goes h' rfl proc
    | kill proc => exact kill_goes h' rfl proc
  exact ⟨hinv, hrequests, hfinish, htrace, hquiet⟩

end Calls

end Lapligence.Scheduler
