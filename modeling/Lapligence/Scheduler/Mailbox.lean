import Lapligence.Scheduler.Semaphore

/-!
# Mailboxes

The mailboxes of a simulation (`llg_mailbox_*`): a queue of messages with an optional bound, and two
queues of waiting processes, one of blocked puts and one of blocked gets and peeks.  Every call that
changes the messages ends in `mailboxServiceWaiters`, which serves the heads of the two queues for
as long as one of them can proceed: a message freed by a get makes room for a blocked put, whose
message may serve the next blocked get.

A killed process is unlinked from the middle of the queue it waits in.  A message that was handed to
a blocked get is kept with the process until it runs (`delivery`).

The storage that a message is copied to is not modelled, only the type check that precedes the copy.
-/

namespace Lapligence.Scheduler

open Function

/-! ## Messages and their types -/

/-- The kinds `LLG_MAILBOX_*`. -/
inductive MailboxKind
  | packed
  | real
  | string
  | handle
  | untyped
  | value
deriving DecidableEq, Repr

/-- The type descriptor that mailboxes, values and targets carry. -/
structure MailboxType where
  kind : MailboxKind
  width : ℕ
  isSigned : Bool
  twoState : Bool
  shortreal : Bool
  typeId : ℕ
deriving DecidableEq, Repr

/-- Where a retrieval stores its message (`llg_mailbox_target_t`).  `initialized` says that a native
target has a descriptor, `atDelivery` that a blocked get stores at the put and not on resumption. -/
structure MailboxTarget where
  type : MailboxType
  initialized : Bool
  atDelivery : Bool
deriving DecidableEq, Repr

/-- `mailbox_message_kind_matches`. -/
def mailboxMessageKindMatches (mailbox value : MailboxType) : Bool :=
  match mailbox.kind with
  | .untyped => true
  | .packed => value.kind = .packed && mailbox.width = value.width &&
      mailbox.isSigned = value.isSigned && mailbox.twoState = value.twoState
  | .real => value.kind = .real && mailbox.shortreal = value.shortreal
  | .string => value.kind = .string
  | .handle => value.kind = .handle
  | .value => value.kind = .value && mailbox.typeId = value.typeId

/-- `mailbox_target_matches`. -/
def mailboxTargetMatches (value : MailboxType) (target : MailboxTarget) : Bool :=
  value.kind = target.type.kind && value.typeId = target.type.typeId &&
    match value.kind with
    | .packed => value.width = target.type.width && value.isSigned = target.type.isSigned &&
        value.twoState = target.type.twoState
    | .real => value.shortreal = target.type.shortreal
    | .string => true
    | .handle => true
    | .value => target.initialized
    | .untyped => false

variable {α : Type}

/-- A message: the number of the call that put it, its type and its contents. -/
structure MailboxMessage (α : Type) where
  number : ℕ
  type : MailboxType
  contents : α

/-! ## The state -/

/-- A process blocked in a put, with its message. -/
structure PutWait (α : Type) where
  proc : ℕ
  message : MailboxMessage α

/-- A process blocked in a get or, if `peek`, in a peek.  `number` is the number of the call. -/
structure GetWait where
  number : ℕ
  proc : ℕ
  target : MailboxTarget
  peek : Bool

/-- `llg_mailbox_t`, with its three lists from head to tail.  A bound of zero is no bound. -/
structure Mailbox (α : Type) where
  bound : ℕ
  type : MailboxType
  messages : List (MailboxMessage α)
  puts : List (PutWait α)
  gets : List GetWait

/-- A message more fits. -/
def Mailbox.Room (q : Mailbox α) : Prop :=
  q.bound = 0 ∨ q.messages.length < q.bound

instance (q : Mailbox α) : Decidable q.Room :=
  inferInstanceAs (Decidable (q.bound = 0 ∨ q.messages.length < q.bound))

/-- The mailbox wait of a process: `W_MAILBOX_PUT` or `W_MAILBOX_GET`, with its mailbox. -/
inductive MailboxWait
  | put (mailbox : ℕ)
  | get (mailbox : ℕ)
deriving DecidableEq, Repr

/-- The mailboxes and processes of a run.  `requests` is the number of calls made so far. -/
structure MailboxState (α : Type) where
  mailboxes : ℕ → Mailbox α
  wait : ℕ → Option MailboxWait
  delivery : ℕ → Option (MailboxMessage α)
  killed : ℕ → Bool
  requests : ℕ
  finish : Bool

/-- What happens to a mailbox. -/
inductive MailboxAction (α : Type)
  | accepted (message : MailboxMessage α)
  | blockedPut (wait : PutWait α)
  | servedPut (wait : PutWait α)
  | retrieved (peek : Bool) (message : MailboxMessage α)
  | blockedGet (wait : GetWait)
  | servedGet (wait : GetWait) (message : MailboxMessage α)
  | left (proc : ℕ)

/-- What a call causes: actions on a mailbox, a refusal (`try_put` or `try_get` returns 0 or -1), the
storing of a delivered message, or an error, which ends the simulation. -/
inductive MailboxEvent (α : Type)
  | on (mailbox : ℕ) (action : MailboxAction α)
  | refused (mailbox : ℕ)
  | delivered (proc : ℕ) (message : MailboxMessage α)
  | error (text : String)

/-! ## The calls -/

namespace MailboxState

variable (s : MailboxState α)

/-- One mailbox replaced. -/
def set (mailbox : ℕ) (value : Mailbox α) : MailboxState α :=
  { s with mailboxes := update s.mailboxes mailbox value }

/-- An error is reported and ends the simulation. -/
def fail (text : String) : MailboxState α × List (MailboxEvent α) :=
  ({ s with finish := true }, [.error text])

/-- `mailbox_message_append`. -/
def append (mailbox : ℕ) (message : MailboxMessage α) : MailboxState α :=
  s.set mailbox { s.mailboxes mailbox with
    messages := (s.mailboxes mailbox).messages ++ [message] }

/-- `mailbox_message_take`: a get removes the head, a peek copies it. -/
def take (mailbox : ℕ) (peek : Bool) : MailboxState α :=
  if peek then s
  else s.set mailbox { s.mailboxes mailbox with messages := (s.mailboxes mailbox).messages.tail }

/-- A blocked put is queued. -/
def blockPut (mailbox : ℕ) (wait : PutWait α) : MailboxState α :=
  { s.set mailbox { s.mailboxes mailbox with puts := (s.mailboxes mailbox).puts ++ [wait] } with
    wait := update s.wait wait.proc (some (.put mailbox)) }

/-- A blocked get is queued. -/
def blockGet (mailbox : ℕ) (wait : GetWait) : MailboxState α :=
  { s.set mailbox { s.mailboxes mailbox with gets := (s.mailboxes mailbox).gets ++ [wait] } with
    wait := update s.wait wait.proc (some (.get mailbox)) }

/-- `mailbox_unlink_wait`: the wait is found through its kind and mailbox. -/
def unlinkWait (proc : ℕ) : MailboxState α :=
  match s.wait proc with
  | none => s
  | some (.put mailbox) => s.set mailbox { s.mailboxes mailbox with
      puts := (s.mailboxes mailbox).puts.eraseP fun w => w.proc = proc }
  | some (.get mailbox) => s.set mailbox { s.mailboxes mailbox with
      gets := (s.mailboxes mailbox).gets.eraseP fun w => w.proc = proc }

/-- `mailbox_remove_and_wake`: the process is unlinked and its wait ends. -/
def removeAndWake (proc : ℕ) : MailboxState α :=
  { s.unlinkWait proc with wait := update s.wait proc none }

/-- The message for the head of the blocked gets is taken and handed over, and the process wakes. -/
def serveGet (mailbox : ℕ) (get : GetWait) (message : MailboxMessage α) : MailboxState α :=
  let s := s.take mailbox get.peek
  let s := if get.target.atDelivery then s
    else { s with delivery := update s.delivery get.proc (some message) }
  s.removeAndWake get.proc

/-- The message of the head of the blocked puts is accepted, and the process wakes. -/
def servePut (mailbox : ℕ) (put : PutWait α) : MailboxState α :=
  (s.append mailbox put.message).removeAndWake put.proc

end MailboxState

/-- An event, and then the rest of a call. -/
def MailboxEvent.andThen (event : MailboxEvent α) (rest : MailboxState α × List (MailboxEvent α)) :
    MailboxState α × List (MailboxEvent α) :=
  (rest.1, event :: rest.2)

/-- `mailbox_service_waiters`: at most `fuel` turns of its loop.  Each turn removes a waiting process,
so their number is fuel enough (`mailboxService_quiet`). -/
def mailboxServiceWaiters (mailbox : ℕ) :
    ℕ → MailboxState α → MailboxState α × List (MailboxEvent α)
  | 0, s => (s, [])
  | fuel + 1, s =>
    if s.finish then (s, [])
    else
      match (s.mailboxes mailbox).messages, (s.mailboxes mailbox).gets with
      | message :: _, get :: _ =>
        if mailboxTargetMatches message.type get.target then
          MailboxEvent.andThen (.on mailbox (.servedGet get message))
            (mailboxServiceWaiters mailbox fuel (s.serveGet mailbox get message))
        else s.fail "llg: mailbox retrieval type mismatch"
      | _, _ =>
        match (s.mailboxes mailbox).puts with
        | put :: _ =>
          if (s.mailboxes mailbox).Room then
            MailboxEvent.andThen (.on mailbox (.servedPut put))
              (mailboxServiceWaiters mailbox fuel (s.servePut mailbox put))
          else (s, [])
        | [] => (s, [])

/-- The processes waiting at a mailbox. -/
def Mailbox.waiters (q : Mailbox α) : ℕ :=
  q.puts.length + q.gets.length

/-- The service at the end of a call, after the event of the call itself. -/
def MailboxState.service (s : MailboxState α) (mailbox : ℕ) (action : MailboxAction α) :
    MailboxState α × List (MailboxEvent α) :=
  MailboxEvent.andThen (.on mailbox action)
    (mailboxServiceWaiters mailbox (s.mailboxes mailbox).waiters s)

/-- `llg_arm_mailbox_put_value`.  `readOnly` names the current region when it is a read-only one. -/
def llgArmMailboxPutValue (s : MailboxState α) (readOnly : Option String) (self mailbox : Option ℕ)
    (message : MailboxMessage α) : MailboxState α × List (MailboxEvent α) :=
  match mailbox with
  | none => s.fail "llg: mailbox put on a null handle"
  | some mailbox =>
    if ¬ mailboxMessageKindMatches (s.mailboxes mailbox).type message.type then
      s.fail "llg: mailbox put value does not match its type"
    else if (s.mailboxes mailbox).Room then
      (s.append mailbox message).service mailbox (.accepted message)
    else
      match self with
      | none => (s, [])
      | some proc =>
        match regionCanMutate readOnly "mailbox put wait" with
        | .error text => s.fail text
        | .ok _ => (s.blockPut mailbox ⟨proc, message⟩, [.on mailbox (.blockedPut ⟨proc, message⟩)])

/-- `llg_mailbox_try_put_value`. -/
def llgMailboxTryPutValue (s : MailboxState α) (mailbox : Option ℕ) (message : MailboxMessage α) :
    MailboxState α × List (MailboxEvent α) :=
  match mailbox with
  | none => s.fail "llg: mailbox try_put on a null handle"
  | some mailbox =>
    if ¬ mailboxMessageKindMatches (s.mailboxes mailbox).type message.type then
      (s, [.refused mailbox])
    else if ¬ (s.mailboxes mailbox).Room then (s, [.refused mailbox])
    else (s.append mailbox message).service mailbox (.accepted message)

/-- The results of `mailbox_take_value`: 0, -1 and 1. -/
inductive MailboxTake (α : Type)
  | empty
  | mismatch
  | taken (result : MailboxState α × List (MailboxEvent α))

/-- `mailbox_take_value`. -/
def mailboxTakeValue (s : MailboxState α) (mailbox : ℕ) (target : MailboxTarget) (peek : Bool) :
    MailboxTake α :=
  match (s.mailboxes mailbox).messages with
  | [] => .empty
  | message :: _ =>
    if ¬ mailboxTargetMatches message.type target then .mismatch
    else .taken ((s.take mailbox peek).service mailbox (.retrieved peek message))

/-- `llg_arm_mailbox_get_value` and `llg_mailbox_wait_get`, for a get or a peek. -/
def llgArmMailboxGetValue (s : MailboxState α) (number : ℕ) (readOnly : Option String)
    (self mailbox : Option ℕ) (target : MailboxTarget) (peek : Bool) :
    MailboxState α × List (MailboxEvent α) :=
  match mailbox with
  | none => s.fail "llg: mailbox get on a null handle"
  | some mailbox =>
    match mailboxTakeValue s mailbox target peek with
    | .mismatch => s.fail "llg: mailbox retrieval type mismatch"
    | .taken result => result
    | .empty =>
      match self with
      | none => (s, [])
      | some proc =>
        match regionCanMutate readOnly "mailbox get wait" with
        | .error text => s.fail text
        | .ok _ => (s.blockGet mailbox ⟨number, proc, target, peek⟩,
            [.on mailbox (.blockedGet ⟨number, proc, target, peek⟩)])

/-- `llg_mailbox_try_get_value`, for a get or a peek. -/
def llgMailboxTryGetValue (s : MailboxState α) (mailbox : Option ℕ) (target : MailboxTarget)
    (peek : Bool) : MailboxState α × List (MailboxEvent α) :=
  match mailbox with
  | none =>
    s.fail (if peek then "llg: mailbox try_peek on a null handle"
      else "llg: mailbox try_get on a null handle")
  | some mailbox =>
    match mailboxTakeValue s mailbox target peek with
    | .empty => (s, [.refused mailbox])
    | .mismatch => (s, [.refused mailbox])
    | .taken result => result

/-- `llg_mailbox_delivery_take`: a process that was served while it was blocked stores its message
when it runs. -/
def llgMailboxDeliveryTake (s : MailboxState α) (proc : ℕ) :
    MailboxState α × List (MailboxEvent α) :=
  match s.delivery proc with
  | none => (s, [])
  | some message =>
    ({ s with delivery := update s.delivery proc none }, [.delivered proc message])

/-- `llg_kill_proc`, as far as mailboxes are concerned: `mailbox_drop_delivery`, then
`mailbox_unlink_wait`. -/
def MailboxState.llgKillProc (s : MailboxState α) (proc : ℕ) :
    MailboxState α × List (MailboxEvent α) :=
  if s.killed proc then (s, [])
  else
    let s := { s with
      killed := update s.killed proc true
      delivery := update s.delivery proc none }
    match s.wait proc with
    | none => (s, [])
    | some (.put mailbox) => (s.removeAndWake proc, [.on mailbox (.left proc)])
    | some (.get mailbox) => (s.removeAndWake proc, [.on mailbox (.left proc)])

/-- The calls, the resumption of a served process, and the kill of a process. -/
inductive MailboxCall (α : Type)
  | put (readOnly : Option String) (self mailbox : Option ℕ) (type : MailboxType) (contents : α)
  | tryPut (mailbox : Option ℕ) (type : MailboxType) (contents : α)
  | get (readOnly : Option String) (self mailbox : Option ℕ) (target : MailboxTarget) (peek : Bool)
  | tryGet (mailbox : Option ℕ) (target : MailboxTarget) (peek : Bool)
  | deliveryTake (proc : ℕ)
  | kill (proc : ℕ)

/-- One call, with the next number. -/
def mailboxStep (s : MailboxState α) (call : MailboxCall α) :
    MailboxState α × List (MailboxEvent α) :=
  let number := s.requests
  let s := { s with requests := s.requests + 1 }
  match call with
  | .put readOnly self mailbox type contents =>
    llgArmMailboxPutValue s readOnly self mailbox ⟨number, type, contents⟩
  | .tryPut mailbox type contents => llgMailboxTryPutValue s mailbox ⟨number, type, contents⟩
  | .get readOnly self mailbox target peek =>
    llgArmMailboxGetValue s number readOnly self mailbox target peek
  | .tryGet mailbox target peek => llgMailboxTryGetValue s mailbox target peek
  | .deliveryTake proc => llgMailboxDeliveryTake s proc
  | .kill proc => s.llgKillProc proc

/-- A process makes a blocking call only while it runs: it does not wait, was not killed, and has
stored what was delivered to it. -/
def MailboxState.Runs (s : MailboxState α) (proc : ℕ) : Prop :=
  s.wait proc = none ∧ s.killed proc = false ∧ s.delivery proc = none

/-- The calls that can be made. -/
def MailboxState.Can (s : MailboxState α) : MailboxCall α → Prop
  | .put _ (some proc) _ _ _ => s.Runs proc
  | .get _ (some proc) _ _ _ => s.Runs proc
  | _ => True

/-- The mailboxes of a simulation. -/
def mailboxMachine (α : Type) : Machine (MailboxState α) (MailboxCall α) (MailboxEvent α) where
  can := MailboxState.Can
  step := mailboxStep

/-- Empty mailboxes with their bounds and types (`llg_mailbox_new`), before any call. -/
def mailboxStart (bound : ℕ → ℕ) (type : ℕ → MailboxType) : MailboxState α where
  mailboxes mailbox := ⟨bound mailbox, type mailbox, [], [], []⟩
  wait _ := none
  delivery _ := none
  killed _ := false
  requests := 0
  finish := false

end Lapligence.Scheduler
