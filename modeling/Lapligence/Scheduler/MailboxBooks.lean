import Lapligence.Framework.WaitingLines
import Lapligence.Scheduler.Mailbox

/-!
# The books of a mailbox

A mailbox by itself, without processes, is a queue of messages and two waiting lines.
`Mailbox.Does` says what may happen to it: a message is accepted only if there is room, only the
head of the messages is retrieved, only the heads of the waiting lines are served.
`MailboxBooks` is what a sequence of such actions keeps; the order of messages and of waiting
processes is read off from it.
-/

namespace Lapligence.Scheduler

open List

variable {α : Type}

/-! ## A mailbox by itself -/

/-- The number of a blocked put is that of its message. -/
def PutWait.number (wait : PutWait α) : ℕ :=
  wait.message.number

/-- What may happen to a mailbox while `n` calls have been made, and the mailbox and the number of
calls afterwards. -/
inductive Mailbox.Does (q : Mailbox α) (n : ℕ) : MailboxAction α → Mailbox α → ℕ → Prop
  | accepted (message : MailboxMessage α) (n' : ℕ) : q.Room → n ≤ message.number →
      message.number < n' →
      Does q n (.accepted message) { q with messages := q.messages ++ [message] } n'
  | blockedPut (wait : PutWait α) (n' : ℕ) : n ≤ wait.number → wait.number < n' →
      Does q n (.blockedPut wait) { q with puts := q.puts ++ [wait] } n'
  | servedPut (wait : PutWait α) (puts : List (PutWait α)) : q.puts = wait :: puts → q.Room →
      Does q n (.servedPut wait)
        { q with messages := q.messages ++ [wait.message], puts := puts } n
  | retrieved (peek : Bool) (message : MailboxMessage α) (rest : List (MailboxMessage α)) :
      q.messages = message :: rest →
      Does q n (.retrieved peek message)
        { q with messages := if peek then q.messages else rest } n
  | blockedGet (wait : GetWait) (n' : ℕ) : n ≤ wait.number → wait.number < n' →
      Does q n (.blockedGet wait) { q with gets := q.gets ++ [wait] } n'
  | servedGet (wait : GetWait) (gets : List GetWait) (message : MailboxMessage α)
      (rest : List (MailboxMessage α)) : q.gets = wait :: gets → q.messages = message :: rest →
      Does q n (.servedGet wait message)
        { q with messages := if wait.peek then q.messages else rest, gets := gets } n
  | left (proc : ℕ) (puts : List (PutWait α)) (gets : List GetWait) : puts.Sublist q.puts →
      gets.Sublist q.gets → Does q n (.left proc) { q with puts := puts, gets := gets } n

/-- A sequence of actions. -/
inductive Mailbox.Trace : Mailbox α → ℕ → List (MailboxAction α) → Mailbox α → ℕ → Prop
  | nil (q : Mailbox α) {n n' : ℕ} : n ≤ n' → Trace q n [] q n'
  | cons {q q₁ q' : Mailbox α} {n n₁ n' : ℕ} {action : MailboxAction α}
      {actions : List (MailboxAction α)} : q.Does n action q₁ n₁ → Trace q₁ n₁ actions q' n' →
      Trace q n (action :: actions) q' n'

lemma Mailbox.Trace.mono {q q' : Mailbox α} {n n' k : ℕ} {actions : List (MailboxAction α)}
    (h : q.Trace n actions q' n') (hle : n' ≤ k) : q.Trace n actions q' k := by
  induction h with
  | nil q hn => exact .nil q (le_trans hn hle)
  | cons hdoes _ ih => exact .cons hdoes (ih hle)

/-- The message that an action puts into the mailbox. -/
@[simp] def MailboxAction.accepts : MailboxAction α → Option (MailboxMessage α)
  | .accepted message => some message
  | .servedPut wait => some wait.message
  | _ => none

/-- The message that an action takes out of the mailbox. -/
@[simp] def MailboxAction.takes : MailboxAction α → Option (MailboxMessage α)
  | .retrieved peek message => if peek then none else some message
  | .servedGet wait message => if wait.peek then none else some message
  | _ => none

/-- The blocked put that an action serves. -/
@[simp] def MailboxAction.servesPut : MailboxAction α → Option ℕ
  | .servedPut wait => some wait.number
  | _ => none

/-- The blocked get or peek that an action serves. -/
@[simp] def MailboxAction.servesGet : MailboxAction α → Option ℕ
  | .servedGet wait _ => some wait.number
  | _ => none

/-- The put that an action blocks. -/
@[simp] def MailboxAction.blocksPut : MailboxAction α → Option ℕ
  | .blockedPut wait => some wait.number
  | _ => none

/-- The get or peek that an action blocks. -/
@[simp] def MailboxAction.blocksGet : MailboxAction α → Option ℕ
  | .blockedGet wait => some wait.number
  | _ => none

/-- The messages accepted, in the order in which they entered the mailbox. -/
def acceptedBy (actions : List (MailboxAction α)) : List (MailboxMessage α) :=
  actions.filterMap MailboxAction.accepts

/-- The messages taken by gets, in the order in which they left the mailbox. -/
def takenBy (actions : List (MailboxAction α)) : List (MailboxMessage α) :=
  actions.filterMap MailboxAction.takes

/-- The numbers of the blocked puts served, in the order of service. -/
def servedPuts (actions : List (MailboxAction α)) : List ℕ :=
  actions.filterMap MailboxAction.servesPut

/-- The numbers of the blocked gets and peeks served, in the order of service. -/
def servedGets (actions : List (MailboxAction α)) : List ℕ :=
  actions.filterMap MailboxAction.servesGet

/-- The numbers of the puts that were blocked. -/
def blockedPuts (actions : List (MailboxAction α)) : List ℕ :=
  actions.filterMap MailboxAction.blocksPut

/-- The numbers of the gets and peeks that were blocked. -/
def blockedGets (actions : List (MailboxAction α)) : List ℕ :=
  actions.filterMap MailboxAction.blocksGet

/-- The books of a mailbox after `n` calls: the messages accepted and taken so far, and the numbers
of the puts and gets blocked and served so far. -/
structure MailboxBooks (accepted taken : List (MailboxMessage α)) (putsCame puts getsCame gets : List ℕ)
    (q : Mailbox α) (n : ℕ) : Prop where
  bounded : q.bound = 0 ∨ q.messages.length ≤ q.bound
  fifo : accepted = taken ++ q.messages
  distinct : (accepted.map MailboxMessage.number ++ q.puts.map PutWait.number).Nodup
  fresh : ∀ message ∈ accepted, message.number < n
  puts_line : WaitingLine putsCame puts (q.puts.map PutWait.number) n
  gets_line : WaitingLine getsCame gets (q.gets.map GetWait.number) n

/-- The books after the actions `done` on a mailbox with the messages `messages` and the blocked puts
and gets `puts` and `gets`. -/
def BooksAfter (messages : List (MailboxMessage α)) (puts gets : List ℕ)
    (done : List (MailboxAction α)) (q : Mailbox α) (n : ℕ) : Prop :=
  MailboxBooks (messages ++ acceptedBy done) (takenBy done) (puts ++ blockedPuts done)
    (servedPuts done) (gets ++ blockedGets done) (servedGets done) q n

namespace MailboxBooks

variable {accepted taken : List (MailboxMessage α)} {putsCame puts getsCame gets : List ℕ}
  {q q' : Mailbox α} {n n' : ℕ}

lemma start (bound : ℕ) (type : MailboxType) (n : ℕ) :
    BooksAfter (α := α) [] [] [] [] ⟨bound, type, [], [], []⟩ n :=
  ⟨.inr (Nat.zero_le _), rfl, nodup_nil, nofun, .nil n, .nil n⟩

/-- A message enters the mailbox. -/
lemma room (hroom : q.Room) (message : MailboxMessage α) :
    q.bound = 0 ∨ (q.messages ++ [message]).length ≤ q.bound := by
  rw [length_append]
  exact hroom.imp_right Nat.succ_le_of_lt

variable (h : MailboxBooks accepted taken putsCame puts getsCame gets q n)
include h

lemma mono (hle : n ≤ n') : MailboxBooks accepted taken putsCame puts getsCame gets q n' :=
  ⟨h.bounded, h.fifo, h.distinct, fun m hm => lt_of_lt_of_le (h.fresh m hm) hle,
    h.puts_line.mono hle, h.gets_line.mono hle⟩

/-- A number that has not been drawn is new. -/
lemma new_number {k : ℕ} (hk : n ≤ k) :
    (accepted.map MailboxMessage.number ++ (q.puts.map PutWait.number ++ [k])).Nodup := by
  rw [← append_assoc]
  refine nodup_append.2 ⟨h.distinct, nodup_singleton k, fun a ha b hb => ?_⟩
  rw [mem_singleton.1 hb]
  refine ne_of_lt (lt_of_lt_of_le ?_ hk)
  rcases mem_append.1 ha with ha | ha
  · obtain ⟨m, hm, rfl⟩ := mem_map.1 ha
    exact h.fresh m hm
  · exact h.puts_line.line_fresh a ha

variable {message : MailboxMessage α}

lemma fresh_append (hle : n ≤ n') (hlt : message.number < n') :
    ∀ m ∈ accepted ++ [message], m.number < n' := by
  intro m hm
  rcases mem_append.1 hm with hm | hm
  · exact lt_of_lt_of_le (h.fresh m hm) hle
  · rw [mem_singleton.1 hm]
    exact hlt

lemma accept (hroom : q.Room) (hnew : n ≤ message.number) (hlt : message.number < n') :
    MailboxBooks (accepted ++ [message]) taken putsCame puts getsCame gets
      { q with messages := q.messages ++ [message] } n' := by
  have hle : n ≤ n' := le_of_lt (lt_of_le_of_lt hnew hlt)
  refine ⟨room hroom message, ?_, ?_, h.fresh_append hle hlt, h.puts_line.mono hle,
    h.gets_line.mono hle⟩
  · rw [← append_assoc, ← h.fifo]
  · rw [map_append, append_assoc]
    exact (List.Perm.append_left _ perm_append_comm).nodup_iff.2 (h.new_number hnew)

lemma blockPut {wait : PutWait α} (hnew : n ≤ wait.number) (hlt : wait.number < n') :
    MailboxBooks accepted taken (putsCame ++ [wait.number]) puts getsCame gets
      { q with puts := q.puts ++ [wait] } n' := by
  have hle : n ≤ n' := le_of_lt (lt_of_le_of_lt hnew hlt)
  refine ⟨h.bounded, h.fifo, ?_, fun m hm => lt_of_lt_of_le (h.fresh m hm) hle, ?_,
    h.gets_line.mono hle⟩
  · rw [map_append]
    exact h.new_number hnew
  · rw [map_append]
    exact h.puts_line.arrive hnew hlt

lemma servePut {wait : PutWait α}
    {waits : List (PutWait α)} (hputs : q.puts = wait :: waits) (hroom : q.Room) :
    MailboxBooks (accepted ++ [wait.message]) taken putsCame (puts ++ [wait.number]) getsCame gets
      { q with messages := q.messages ++ [wait.message], puts := waits } n := by
  have hline := h.puts_line
  have hdistinct := h.distinct
  rw [hputs, map_cons] at hline hdistinct
  refine ⟨room hroom wait.message, ?_, ?_,
    h.fresh_append (le_refl n) (hline.line_fresh _ mem_cons_self), hline.serve,
    h.gets_line⟩
  · rw [← append_assoc, ← h.fifo]
  · rw [map_append, append_assoc]
    exact hdistinct

/-- The head of the messages is copied or taken. -/
lemma retrieve (peek : Bool) {rest : List (MailboxMessage α)} (hmessages : q.messages = message :: rest) :
    MailboxBooks accepted (taken ++ (if peek then none else some message).toList) putsCame puts
      getsCame gets
      { q with messages := if peek then q.messages else rest } n := by
  cases peek with
  | true => simpa using h
  | false =>
    refine ⟨h.bounded.imp_right fun hle => ?_, ?_, h.distinct, h.fresh, h.puts_line, h.gets_line⟩
    · rw [hmessages] at hle
      exact Nat.le_of_succ_le hle
    · rw [h.fifo, hmessages]
      simp

lemma blockGet {wait : GetWait} (hnew : n ≤ wait.number) (hlt : wait.number < n') :
    MailboxBooks accepted taken putsCame puts (getsCame ++ [wait.number]) gets
      { q with gets := q.gets ++ [wait] } n' := by
  obtain ⟨hbounded, hfifo, hdistinct, hfresh, hputs, -⟩ :=
    h.mono (le_of_lt (lt_of_le_of_lt hnew hlt))
  refine ⟨hbounded, hfifo, hdistinct, hfresh, hputs, ?_⟩
  rw [map_append]
  exact h.gets_line.arrive hnew hlt

lemma serveGet {wait : GetWait} {waits : List GetWait} (hgets : q.gets = wait :: waits) :
    MailboxBooks accepted taken putsCame puts getsCame (gets ++ [wait.number])
      { q with gets := waits } n := by
  have hline := h.gets_line
  rw [hgets, map_cons] at hline
  exact ⟨h.bounded, h.fifo, h.distinct, h.fresh, h.puts_line, hline.serve⟩

lemma leave {putWaits : List (PutWait α)}
    {getWaits : List GetWait} (hputs : putWaits.Sublist q.puts) (hgets : getWaits.Sublist q.gets) :
    MailboxBooks accepted taken putsCame puts getsCame gets
      { q with puts := putWaits, gets := getWaits } n :=
  ⟨h.bounded, h.fifo, h.distinct.sublist (List.Sublist.append_left (hputs.map _) _), h.fresh,
    h.puts_line.leave (hputs.map _), h.gets_line.leave (hgets.map _)⟩

/-- One action is entered in the books. -/
lemma does {action : MailboxAction α} (hdoes : q.Does n action q' n') :
    MailboxBooks (accepted ++ action.accepts.toList) (taken ++ action.takes.toList)
      (putsCame ++ action.blocksPut.toList) (puts ++ action.servesPut.toList)
      (getsCame ++ action.blocksGet.toList) (gets ++ action.servesGet.toList) q' n' := by
  cases hdoes with
  | accepted message _ hroom hnew hlt => simpa using h.accept hroom hnew hlt
  | blockedPut wait _ hnew hlt => simpa using h.blockPut hnew hlt
  | servedPut wait waits hputs hroom => simpa using h.servePut hputs hroom
  | retrieved peek message rest hmessages => simpa using h.retrieve peek hmessages
  | blockedGet wait _ hnew hlt => simpa using h.blockGet hnew hlt
  | servedGet wait waits message rest hgets hmessages =>
    simpa using (h.retrieve wait.peek hmessages).serveGet hgets
  | left proc putWaits getWaits hputs hgets => simpa using h.leave hputs hgets

/-- The books of what the mailbox holds now. -/
lemma restart : BooksAfter q.messages (q.puts.map PutWait.number) (q.gets.map GetWait.number) [] q n := by
  have hsub : q.messages.Sublist accepted := h.fifo ▸ sublist_append_right ..
  simp only [BooksAfter, acceptedBy, blockedPuts, blockedGets, filterMap_nil, append_nil]
  exact ⟨h.bounded, rfl, h.distinct.sublist ((hsub.map _).append_right _),
    fun m hm => h.fresh m (hsub.subset hm), h.puts_line.restart, h.gets_line.restart⟩

end MailboxBooks

/-- A sequence of actions is entered in the books. -/
lemma BooksAfter.trace {messages : List (MailboxMessage α)} {puts gets : List ℕ}
    {actions done : List (MailboxAction α)} {q q' : Mailbox α} {n n' : ℕ}
    (h : BooksAfter messages puts gets done q n) (htrace : q.Trace n actions q' n') :
    BooksAfter messages puts gets (done ++ actions) q' n' := by
  induction htrace generalizing done with
  | nil q hle =>
    rw [append_nil]
    exact h.mono hle
  | @cons q q₁ q' n n₁ n' action actions hdoes _ ih =>
    have hone := MailboxBooks.does h hdoes
    have hsnoc : ∀ {γ : Type} (f : MailboxAction α → Option γ),
        done.filterMap f ++ (f action).toList = (done ++ [action]).filterMap f := by
      intro γ f
      rw [filterMap_append]
      cases hf : f action <;> simp [hf]
    simp only [acceptedBy, takenBy, blockedPuts, servedPuts, blockedGets, servedGets, append_assoc,
      hsnoc] at hone
    have hrest := ih hone
    rwa [append_assoc] at hrest

end Lapligence.Scheduler
