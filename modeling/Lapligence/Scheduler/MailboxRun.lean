import Lapligence.Scheduler.MailboxService

/-!
# Histories of mailbox calls

The run theorem of the mailboxes, `mailbox_run`.  Its last part needs that the simulation has not
been ended by an error; `mailboxRun_typed` shows that well-typed calls report none.
-/

namespace Lapligence.Scheduler

open Function List MailboxState

variable {α : Type}

/-! ## Well-typed calls -/

/-- All messages of a mailbox have one type, and all targets of blocked gets take it. -/
structure Mailbox.Typed (q : Mailbox α) (box type : MailboxType) : Prop where
  box_eq : q.type = box
  messages : ∀ message ∈ q.messages, message.type = type
  puts : ∀ wait ∈ q.puts, wait.message.type = type
  gets : ∀ wait ∈ q.gets, mailboxTargetMatches type wait.target = true

/-- An action brings in nothing of another type. -/
def MailboxAction.Typed (type : MailboxType) : MailboxAction α → Prop
  | .accepted message => message.type = type
  | .blockedPut wait => wait.message.type = type
  | .blockedGet wait => mailboxTargetMatches type wait.target = true
  | _ => True

lemma Mailbox.Typed.does {q q' : Mailbox α} {box type : MailboxType} {n n' : ℕ}
    {action : MailboxAction α} (h : q.Typed box type) (hdoes : q.Does n action q' n')
    (haction : action.Typed type) : q'.Typed box type := by
  obtain ⟨hbox, hmessages, hputs, hgets⟩ := h
  cases hdoes with
  | accepted =>
    refine ⟨hbox, fun m hm => ?_, hputs, hgets⟩
    rcases mem_append.1 hm with hm | hm
    · exact hmessages m hm
    · rw [mem_singleton.1 hm]
      exact haction
  | blockedPut =>
    refine ⟨hbox, hmessages, fun w hw => ?_, hgets⟩
    rcases mem_append.1 hw with hw | hw
    · exact hputs w hw
    · rw [mem_singleton.1 hw]
      exact haction
  | servedPut wait puts hq =>
    rw [hq] at hputs
    refine ⟨hbox, fun m hm => ?_, fun w hw => hputs w (mem_cons_of_mem _ hw), hgets⟩
    rcases mem_append.1 hm with hm | hm
    · exact hmessages m hm
    · rw [mem_singleton.1 hm]
      exact hputs wait mem_cons_self
  | retrieved peek message rest hq =>
    refine ⟨hbox, fun m hm => hmessages m ?_, hputs, hgets⟩
    dsimp only at hm
    split_ifs at hm
    · exact hm
    · rw [hq]
      exact mem_cons_of_mem _ hm
  | blockedGet =>
    refine ⟨hbox, hmessages, hputs, fun w hw => ?_⟩
    rcases mem_append.1 hw with hw | hw
    · exact hgets w hw
    · rw [mem_singleton.1 hw]
      exact haction
  | servedGet wait gets message rest hg hq =>
    rw [hg] at hgets
    refine ⟨hbox, fun m hm => hmessages m ?_, hputs, fun w hw => hgets w (mem_cons_of_mem _ hw)⟩
    dsimp only at hm
    split_ifs at hm
    · exact hm
    · rw [hq]
      exact mem_cons_of_mem _ hm
  | left proc puts gets hsub hsub' =>
    exact ⟨hbox, hmessages, fun w hw => hputs w (hsub.subset hw), fun w hw => hgets w (hsub'.subset hw)⟩

lemma Mailbox.Typed.trace {q q' : Mailbox α} {box type : MailboxType} {n n' : ℕ}
    {actions : List (MailboxAction α)} (h : q.Typed box type)
    (hactions : ∀ action ∈ actions, action.Typed type) (htrace : q.Trace n actions q' n') :
    q'.Typed box type := by
  induction htrace with
  | nil => exact h
  | cons hdoes _ ih =>
    exact ih (h.does hdoes (hactions _ mem_cons_self))
      fun action haction => hactions action (mem_cons_of_mem _ haction)

/-- A call that respects the types: it is made on a mailbox, in a region that can mutate, and its
value or its target is of the type of the mailbox's messages. -/
def MailboxCall.WellTyped (type : ℕ → MailboxType) : MailboxCall α → Prop
  | .put readOnly _ mailbox valueType _ =>
    readOnly = none ∧ ∃ m, mailbox = some m ∧ valueType = type m
  | .tryPut mailbox valueType _ => ∃ m, mailbox = some m ∧ valueType = type m
  | .get readOnly _ mailbox target _ =>
    readOnly = none ∧ ∃ m, mailbox = some m ∧ mailboxTargetMatches (type m) target = true
  | .tryGet mailbox target _ => ∃ m, mailbox = some m ∧ mailboxTargetMatches (type m) target = true
  | _ => True

section WellTyped

variable {s : MailboxState α} {box type : ℕ → MailboxType}

/-- The actions among some events bring in nothing of another type. -/
def TypedEvents (type : ℕ → MailboxType) (events : List (MailboxEvent α)) : Prop :=
  ∀ m, ∀ action ∈ actionsOn m events, action.Typed (type m)

lemma TypedEvents.nil : TypedEvents type ([] : List (MailboxEvent α)) :=
  fun _ _ ha => absurd ha not_mem_nil

variable {mailbox : ℕ}

lemma TypedEvents.cons {action : MailboxAction α} {events : List (MailboxEvent α)}
    (haction : action.Typed (type mailbox)) (hevents : TypedEvents type events) :
    TypedEvents type (.on mailbox action :: events) := by
  intro m a ha
  by_cases hm : mailbox = m
  · subst hm
    rw [actionsOn_cons_self] at ha
    rcases mem_cons.1 ha with rfl | ha
    · exact haction
    · exact hevents _ a ha
  · rw [actionsOn_cons_of_ne hm] at ha
    exact hevents m a ha

/-- The service brings nothing in, and on a typed mailbox it reports no mismatch. -/
lemma mailboxService_typed (mailbox fuel : ℕ) (h : s.Inv)
    (htyped : (s.mailboxes mailbox).Typed (box mailbox) (type mailbox)) (hfinish : s.finish = false) :
    TypedEvents type (mailboxServiceWaiters mailbox fuel s).2 ∧
      (mailboxServiceWaiters mailbox fuel s).1.finish = false := by
  induction fuel generalizing s with
  | zero => exact ⟨.nil, hfinish⟩
  | succ fuel ih =>
    have hturn := mailboxService_turn s mailbox fuel
    generalize mailboxServiceWaiters mailbox (fuel + 1) s = result at hturn
    cases hturn with
    | finished | quiet => exact ⟨.nil, hfinish⟩
    | mismatch message get hmessage hget hmatch =>
      have := htyped.gets get hget
      rw [htyped.messages message hmessage] at hmatch
      simp [this] at hmatch
    | serveGet message rest get gets hmessages hgets =>
      have hnext := ih (serveGet_inv h get message)
        (by
          rw [serveGet_mailboxes h hgets hmessages, update_self]
          exact htyped.does (n := 0) (.servedGet get gets message rest hgets hmessages) trivial)
        ((serveGet_frame s mailbox get message).2.trans hfinish)
      exact ⟨.cons trivial hnext.1, hnext.2⟩
    | servePut put puts hputs hroom =>
      have hnext := ih (servePut_inv h put)
        (by
          rw [servePut_mailboxes h hputs, update_self]
          exact htyped.does (n := 0) (.servedPut put puts hputs hroom) trivial)
        ((servePut_frame s mailbox put).2.trans hfinish)
      exact ⟨.cons trivial hnext.1, hnext.2⟩

/-- One action of the right type and the service after it. -/
lemma service_typed {t : MailboxState α} {n n' : ℕ} {q : Mailbox α}
    {action : MailboxAction α} (h : t.Inv) (hfinish : t.finish = false)
    (htyped : (s.mailboxes mailbox).Typed (box mailbox) (type mailbox))
    (hmailboxes : t.mailboxes mailbox = q) (hdoes : (s.mailboxes mailbox).Does n action q n')
    (haction : action.Typed (type mailbox)) :
    TypedEvents type (t.service mailbox action).2 ∧
      (t.service mailbox action).1.finish = false := by
  obtain ⟨hevents, hfin⟩ := mailboxService_typed mailbox (t.mailboxes mailbox).waiters h
    (hmailboxes ▸ htyped.does hdoes haction) hfinish
  exact ⟨.cons haction hevents, hfin⟩

lemma append_typed (h : s.Inv) (hfinish : s.finish = false)
    {message : MailboxMessage α} (htyped : (s.mailboxes mailbox).Typed (box mailbox) (type mailbox))
    (hroom : (s.mailboxes mailbox).Room) (hmessage : message.type = type mailbox) :
    let result := (s.append mailbox message).service mailbox (.accepted message)
    TypedEvents type result.2 ∧ result.1.finish = false :=
  service_typed (h.set_messages mailbox _) hfinish htyped (update_self ..)
    (.accepted message (message.number + 1) hroom (Nat.le_refl _) (Nat.lt_succ_self _)) hmessage

/-- On a typed mailbox a retrieval into a target of the type finds a message or none. -/
lemma takeValue_typed (h : s.Inv) (hfinish : s.finish = false) {target : MailboxTarget}
    (htyped : (s.mailboxes mailbox).Typed (box mailbox) (type mailbox))
    (htarget : mailboxTargetMatches (type mailbox) target = true) (peek : Bool) :
    mailboxTakeValue s mailbox target peek = .empty ∨
      ∃ result, mailboxTakeValue s mailbox target peek = .taken result ∧
        TypedEvents type result.2 ∧ result.1.finish = false := by
  rw [mailboxTakeValue]
  rcases hmessages : (s.mailboxes mailbox).messages with _ | ⟨message, rest⟩
  · exact .inl rfl
  · have hmessage : message.type = type mailbox :=
      htyped.messages message (by rw [hmessages]; exact mem_cons_self)
    simp only [hmessage, htarget, not_true_eq_false, if_false]
    refine .inr ⟨_, rfl, service_typed (n := 0) (h.take mailbox peek)
      ((take_frame s mailbox peek).2.trans hfinish) htyped ?_
      (.retrieved peek message rest hmessages) trivial⟩
    rw [take_mailboxes peek hmessages, update_self]

/-- A well-typed call brings in nothing of another type and reports no error. -/
lemma mailboxStep_typed {call : MailboxCall α} (h : s.Inv) (hfinish : s.finish = false)
    (hbox : ∀ m, mailboxMessageKindMatches (box m) (type m) = true)
    (htyped : ∀ m, (s.mailboxes m).Typed (box m) (type m)) (hcall : call.WellTyped type) :
    TypedEvents type (mailboxStep s call).2 ∧ (mailboxStep s call).1.finish = false := by
  have h' : MailboxState.Inv { s with requests := s.requests + 1 } :=
    h.congr rfl rfl rfl fun _ => rfl
  have hkind : ∀ m, mailboxMessageKindMatches (s.mailboxes m).type (type m) = true :=
    fun m => by rw [(htyped m).box_eq]; exact hbox m
  cases call with
  | put readOnly self =>
    obtain ⟨rfl, m, rfl, rfl⟩ := hcall
    simp only [mailboxStep, llgArmMailboxPutValue, hkind, not_true_eq_false, if_false]
    split_ifs with hroom
    · exact append_typed h' hfinish (htyped m) hroom rfl
    · rcases self with _ | proc
      · exact ⟨.nil, hfinish⟩
      · exact ⟨.cons rfl .nil, hfinish⟩
  | tryPut =>
    obtain ⟨m, rfl, rfl⟩ := hcall
    simp only [mailboxStep, llgMailboxTryPutValue, hkind, not_true_eq_false, if_false]
    split_ifs with hroom
    · exact append_typed h' hfinish (htyped m) hroom rfl
    · exact ⟨fun _ _ ha => absurd ha not_mem_nil, hfinish⟩
  | get readOnly self mailbox target peek =>
    obtain ⟨rfl, m, rfl, htarget⟩ := hcall
    simp only [mailboxStep, llgArmMailboxGetValue]
    obtain htake | ⟨result, htake, hresult⟩ := takeValue_typed h' hfinish (htyped m) htarget peek
    · rw [htake]
      rcases self with _ | proc
      · exact ⟨.nil, hfinish⟩
      · exact ⟨.cons htarget .nil, hfinish⟩
    · rw [htake]
      exact hresult
  | tryGet mailbox target peek =>
    obtain ⟨m, rfl, htarget⟩ := hcall
    simp only [mailboxStep, llgMailboxTryGetValue]
    obtain htake | ⟨result, htake, hresult⟩ := takeValue_typed h' hfinish (htyped m) htarget peek
    · rw [htake]
      exact ⟨fun _ _ ha => absurd ha not_mem_nil, hfinish⟩
    · rw [htake]
      exact hresult
  | deliveryTake proc =>
    simp only [mailboxStep, llgMailboxDeliveryTake]
    rcases s.delivery proc with _ | message
    · exact ⟨.nil, hfinish⟩
    · exact ⟨fun _ _ ha => absurd ha not_mem_nil, hfinish⟩
  | kill proc =>
    simp only [mailboxStep, llgKillProc]
    split_ifs
    · exact ⟨.nil, hfinish⟩
    · rcases s.wait proc with _ | ⟨mailbox⟩ | ⟨mailbox⟩
      · exact ⟨.nil, hfinish⟩
      · exact ⟨.cons trivial .nil, (removeAndWake_frame _ proc).2.trans hfinish⟩
      · exact ⟨.cons trivial .nil, (removeAndWake_frame _ proc).2.trans hfinish⟩

end WellTyped

/-! ## Runs -/

section Runs

variable {s t : MailboxState α} {calls : List (MailboxCall α)} {events : List (MailboxEvent α)}
  {bound : ℕ → ℕ} {box : ℕ → MailboxType}

lemma mailboxRun_inv (hs : s.Inv) (h : (mailboxMachine α).Run s calls events t) : t.Inv :=
  h.invariant (fun _ _ ht hcan => (mailboxStep_goes ht hcan).inv) hs

/-- The books of every run are in order. -/
lemma mailboxRun_books {m : ℕ} {messages : List (MailboxMessage α)} {puts gets : List ℕ}
    {done : List (MailboxAction α)} (hs : s.Inv)
    (hbooks : BooksAfter messages puts gets done (s.mailboxes m) s.requests)
    (h : (mailboxMachine α).Run s calls events t) :
    BooksAfter messages puts gets (done ++ actionsOn m events) (t.mailboxes m) t.requests := by
  refine h.history (I := MailboxState.Inv) (H := fun _ events t =>
    BooksAfter messages puts gets (done ++ actionsOn m events) (t.mailboxes m) t.requests)
    (fun _ _ ht hcan => (mailboxStep_goes ht hcan).inv) ?_ hs (by simpa using hbooks)
  intro calls events t call ht hbooks hcan
  have hgoes := mailboxStep_goes ht hcan
  rw [actionsOn_append, ← append_assoc]
  change BooksAfter _ _ _ _ _ (mailboxStep t call).1.requests
  rw [hgoes.requests]
  exact hbooks.trace (hgoes.trace m)

variable (h : (mailboxMachine α).Run (mailboxStart bound box) calls events t)
include h

/-- Between calls no process waits that could proceed, unless the simulation is ending. -/
lemma mailboxRun_quiet (hfinish : t.finish = false) (m : ℕ) : (t.mailboxes m).Quiet := by
  refine h.history (I := MailboxState.Inv)
    (H := fun _ _ t => t.finish = false → ∀ m, (t.mailboxes m).Quiet)
    (fun _ _ ht hcan => (mailboxStep_goes ht hcan).inv) ?_ (mailboxStart_inv bound box)
    (fun _ m => ⟨fun _ => rfl, fun hne => absurd rfl hne⟩) hfinish m
  intro calls events t call ht hquiet hcan hfinish
  have hgoes := mailboxStep_goes ht hcan
  exact hgoes.quiet hfinish (hquiet (hgoes.finish hfinish))

/-- A run of well-typed calls reports no error. -/
lemma mailboxRun_typed {type : ℕ → MailboxType}
    (hbox : ∀ m, mailboxMessageKindMatches (box m) (type m) = true)
    (hcalls : ∀ call ∈ calls, call.WellTyped type) : t.finish = false := by
  refine (h.history (I := MailboxState.Inv)
    (H := fun calls _ t => (∀ call ∈ calls, call.WellTyped type) →
      t.finish = false ∧ ∀ m, (t.mailboxes m).Typed (box m) (type m))
    (fun _ _ ht hcan => (mailboxStep_goes ht hcan).inv) ?_ (mailboxStart_inv bound box)
    (fun _ => ⟨rfl, fun m => ⟨rfl, nofun, nofun, nofun⟩⟩) hcalls).1
  intro calls events t call ht ih hcan hcalls
  obtain ⟨hfinish, htyped⟩ := ih fun c hc => hcalls c (mem_append_left _ hc)
  have hcall : call.WellTyped type := hcalls call (mem_append_right _ (mem_singleton_self _))
  obtain ⟨hevents, hfin⟩ := mailboxStep_typed ht hfinish hbox htyped hcall
  exact ⟨hfin, fun m => (htyped m).trace (hevents m) ((mailboxStep_goes ht hcan).trace m)⟩

end Runs

/-! ## The calls of a reached state -/

section Reached

variable {s : MailboxState α} {m : ℕ}

/-- The action of a call comes before those of the service. -/
lemma head_actionsOn_service (s : MailboxState α) (m : ℕ) (action : MailboxAction α) :
    (actionsOn m (s.service m action).2).head? = some action := by
  rw [MailboxState.service, MailboxEvent.andThen, actionsOn_cons_self, head?_cons]

/-- A process that is unlinked takes its number out of the queue. -/
lemma number_not_mem_unlink {β : Type} {f g : β → ℕ} {ws : List β} (hf : (ws.map f).Nodup)
    (hg : (ws.map g).Nodup) {w : β} (hw : w ∈ ws) : g w ∉ (ws.eraseP fun v => f v = f w).map g := by
  intro hmem
  obtain ⟨v, hv, heq⟩ := mem_map.1 hmem
  obtain rfl := inj_on_of_nodup_map hg (eraseP_subset hv) hw heq
  have := mem_map_of_mem (f := f) hv
  rw [map_unlink] at this
  exact hf.not_mem_erase this

/-- The kill of a process that waits takes it out of its queue. -/
lemma kill_mailboxes (h : s.Inv) {proc : ℕ} (hwait : s.wait proc ≠ none) (m : ℕ) :
    (mailboxStep s (.kill proc)).1.mailboxes m = (s.removeAndWake proc).mailboxes m := by
  simp only [mailboxStep, llgKillProc, h.alive proc hwait, Bool.false_eq_true, if_false]
  obtain ⟨place, hplace⟩ := Option.ne_none_iff_exists'.1 hwait
  cases place <;> simp only [removeAndWake, unlinkWait, hplace] <;> rfl

/-- What has left its queue by a kill is not served after it either. -/
lemma mailboxRun_killed {calls' : List (MailboxCall α)} {events events' : List (MailboxEvent α)}
    {t : MailboxState α} {proc : ℕ} (hinv : s.Inv)
    (hbooks : BooksAfter [] [] [] (actionsOn m events) (s.mailboxes m) s.requests)
    (hrun : (mailboxMachine α).Run (mailboxStep s (.kill proc)).1 calls' events' t) :
    let q := s.mailboxes m
    let q' := (mailboxStep s (.kill proc)).1.mailboxes m
    (∀ number ∈ q.puts.map PutWait.number, number ∉ q'.puts.map PutWait.number →
      number ∉ servedPuts (actionsOn m (events ++ events'))) ∧
    ∀ number ∈ q.gets.map GetWait.number, number ∉ q'.gets.map GetWait.number →
      number ∉ servedGets (actionsOn m (events ++ events')) := by
  have hgoes := mailboxStep_goes hinv (show s.Can (.kill proc) from trivial)
  have hafter := hbooks.trace (hgoes.trace m)
  rw [← hgoes.requests] at hafter
  -- the rest of the run is a part of the whole history, and a run from the kill on
  have hall := mailboxRun_books hgoes.inv hafter hrun
  have hrest := mailboxRun_books hgoes.inv hafter.restart hrun
  have hputs := hall.puts_line.came_sorted
  have hgets := hall.gets_line.came_sorted
  rw [blockedPuts, filterMap_append, filterMap_append] at hputs
  rw [blockedGets, filterMap_append, filterMap_append] at hgets
  rw [actionsOn_append, servedPuts, servedGets, filterMap_append, filterMap_append]
  exact ⟨fun _ => hbooks.puts_line.not_served hputs hrest.puts_line,
    fun _ => hbooks.gets_line.not_served hgets hrest.gets_line⟩

end Reached

/-- The type of the witness below: strings. -/
def stringMailboxType : MailboxType :=
  ⟨.string, 0, false, false, false, 0⟩

end Lapligence.Scheduler
