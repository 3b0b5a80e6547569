import Jarvis.Orchestrator.Codec
import Jarvis.Table

/-!
# The store

`store.go` over the tables of `migrations/`: one function for each method, from the database (and
the time `now()` gives) to what the method returns and the database it leaves. A method is one
statement, or one transaction whose row locks make it atomic towards the others; a statement that
violates a key, a foreign key or a check fails and changes nothing.

`Query` names the methods and `Query.exec` runs one; `Query.exec_same` is the frame rule: a method
leaves alone the tables it does not write.
-/

namespace Jarvis.Orchestrator

open Table

/-- The orchestrator's database. Source: `migrations/` -/
structure DB where
  conversations : List Conversation := []
  turns : List TurnRow := []
  toolCalls : List ToolCallRow := []
  tasks : List TaskRow := []
  confirmations : List Confirmation := []
  events : List EventRow := []
  /-- The next value of the `bigserial` of `events`. -/
  nextEvent : ℕ := 1
  devices : List Device := []
  approvals : List DeviceApproval := []
  memoryJobs : List MemoryJob := []
  notifications : List NotificationRow := []
  /-- The next value of the `bigserial` of `notifications`. -/
  nextNotification : ℕ := 1

/-- How a method fails: no row matched (`ErrNotFound`), or the statement did not go through. -/
inductive StoreErr where
  | notFound
  | failed
  deriving DecidableEq, Repr

/-- What a method returns. -/
abbrev Res (α : Type) := Except StoreErr α

/-- A row, or `ErrNotFound`. Source: `store.go` `notFound` -/
def found {α : Type} : Option α → Res α
  | some x => .ok x
  | none => .error .notFound

namespace DB

/-! ### Conversations -/

/-- Source: `store.go` `ConversationLifetime` -/
def conversationLifetime : Time := 2 * hour

/-- Source: `store.go` `Conversation` -/
def conversation (db : DB) (id : UUID) : Option Conversation :=
  row Conversation.id id db.conversations

/-- Source: `store.go` `CreateConversation` -/
def createConversation (c : Conversation) (now : Time) (db : DB) : Res Unit × DB :=
  if (db.conversation c.id).isSome || c.userID.length = 0 || 128 < c.userID.length then
    (.error .failed, db)
  else
    (.ok (), { db with
      conversations := Table.insert
        { c with userTurn := 0, closedAt := none, createdAt := now } db.conversations })

/-- Source: `store.go` `AdvanceTurn` -/
def advanceTurn (id : UUID) (turn : ℤ) (db : DB) : Res Unit × DB :=
  (.ok (), { db with
    conversations := Table.set (·.id = id)
      (fun c => { c with userTurn := max c.userTurn turn }) db.conversations })

/-- Source: `store.go` `RecordTurn` -/
def recordTurn (id : UUID) (role itemID : String) (turn : ℤ) (text : String) (now : Time)
    (db : DB) : Res Unit × DB :=
  if (db.conversation id).isNone || (role ≠ "user" && role ≠ "assistant") then
    (.error .failed, db)
  else
    let same (t : TurnRow) : Bool := t.conversationID = id ∧ t.role = role ∧ t.itemID = itemID
    if db.turns.any same then
      (.ok (), { db with
        turns := Table.set same (fun t => { t with
        text := if text ≠ "" then text else t.text
        userTurn := max t.userTurn turn }) db.turns })
    else
      (.ok (), { db with turns := Table.insert ⟨id, role, itemID, turn, text, now⟩ db.turns })

/-- Source: `store.go` `CloseConversation` -/
def closeConversation (id : UUID) (now : Time) (db : DB) : Res Bool × DB :=
  let p (c : Conversation) : Bool := c.id = id ∧ c.closedAt = none
  (.ok (db.conversations.countP p = 1), { db with
    conversations :=
      Table.set p (fun c => { c with closedAt := some now }) db.conversations })

/-- Source: `store.go` `Transcript` -/
def transcript (db : DB) (id : UUID) : List TurnRow :=
  orderBy TurnRow.createdAt (orderBy TurnRow.userTurn
    (db.turns.filter fun t => t.conversationID = id ∧ t.text ≠ ""))

/-- Source: `store.go` `PurgeTranscripts` -/
def purgeTranscripts (retention now : Time) (db : DB) : Res ℕ × DB :=
  let p (t : TurnRow) : Bool := db.conversations.any fun c =>
    c.id = t.conversationID && match c.closedAt with
      | some at_ => decide (at_ < now - retention)
      | none => false
  (.ok (db.turns.countP p), { db with turns := Table.delete p db.turns })

/-- Source: `store.go` `CloseAbandoned` -/
def closeAbandoned (now : Time) (db : DB) : Res (List UUID) × DB :=
  let p (c : Conversation) : Bool :=
    c.closedAt = none ∧ c.createdAt < now - conversationLifetime
  (.ok ((db.conversations.filter p).map Conversation.id), { db with
    conversations :=
      Table.set p (fun c => { c with closedAt := some now }) db.conversations })

/-! ### Tool calls -/

/-- Source: `store.go` `ToolCall` -/
def toolCall (db : DB) (conversation : UUID) (callID : String) : Option CallResult :=
  (db.toolCalls.find? fun r => r.conversationID = conversation ∧ r.callID = callID).map
    ToolCallRow.result

/-- Source: `store.go` `SaveToolCall` -/
def saveToolCall (conversation : UUID) (callID name : String) (r : CallResult) (db : DB) :
    Res Unit × DB :=
  if (db.conversation conversation).isNone then (.error .failed, db)
  else if (db.toolCall conversation callID).isSome then (.ok (), db)
  else (.ok (), { db with toolCalls := Table.insert ⟨conversation, callID, name, r⟩ db.toolCalls })

/-! ### Tasks -/

/-- The row of a task. Source: `store.go` `TaskByID` -/
def taskRow (db : DB) (id : UUID) : Option TaskRow := row (fun r : TaskRow => r.id) id db.tasks

/-- Source: `store.go` `CreateTask`. The `steps` of the record are not written. -/
def createTask (t : Task) (now : Time) (db : DB) : Res Unit × DB :=
  if (db.taskRow t.id).isSome || t.conversationID.any fun k => (db.conversation k).isNone then
    (.error .failed, db)
  else
    (.ok (), { db with
      tasks :=
        Table.insert { t with steps := 0, createdAt := now, updatedAt := now } db.tasks })

/-- Source: `store.go` `Task` -/
def task (db : DB) (tenant : UUID) (user : String) (id : UUID) : Option Task :=
  (db.tasks.find? fun r => r.id = id ∧ r.tenantID = tenant ∧ r.userID = user).map TaskRow.toTask

/-- Source: `store.go` `Tasks` -/
def listTasks (db : DB) (tenant : UUID) (user : String) (limit : ℕ) : List Task :=
  ((orderBy (fun r : TaskRow => -r.createdAt)
    (db.tasks.filter fun r => r.tenantID = tenant ∧ r.userID = user)).take limit).map TaskRow.toTask

/-- A task a worker may take: queued, or running with an expired lease. -/
def runnable (now : Time) (r : TaskRow) : Bool :=
  r.state = .queued || (r.state = .running && r.leaseUntil.any fun t => t < now)

/-- The row with a new lease. -/
def lease (owner : Owner) (duration now : Time) (r : TaskRow) : TaskRow :=
  { r with
    state := .running
    leaseOwner := some owner
    leaseUntil := some (now + duration)
    updatedAt := now }

/-- Source: `store.go` `LeaseTask`. `locked` are the rows other transactions hold, which the
statement skips. -/
def leaseTask (owner : Owner) (duration : Time) (locked : List UUID) (now : Time) (db : DB) :
    Res Task × DB :=
  match (orderBy (fun r : TaskRow => r.updatedAt)
    (db.tasks.filter fun r => runnable now r && r.id ∉ locked)).head? with
  | none => (.error .notFound, db)
  | some r =>
    (.ok (lease owner duration now r).toTask, { db with
      tasks :=
        Table.set (fun r' => r'.id = r.id) (lease owner duration now) db.tasks })

/-- The row a worker may write: running, under its own lease. -/
def held (id : UUID) (owner : Owner) (r : TaskRow) : Bool :=
  r.id = id ∧ r.leaseOwner = some owner ∧ r.state = .running

/-- Source: `store.go` `RenewLease` -/
def renewLease (id : UUID) (owner : Owner) (duration now : Time) (db : DB) : Res Bool × DB :=
  (.ok (db.tasks.countP (held id owner) = 1), { db with
    tasks := Table.set (held id owner)
      (fun r => { r with leaseUntil := some (now + duration) }) db.tasks })

/-- The row with a worker's progress. -/
def saved (t : Task) (now : Time) (r : TaskRow) : TaskRow :=
  { r with
    history := t.history
    pending := t.pending
    steps := t.steps
    updatedAt := now }

/-- Source: `store.go` `SaveProgress` -/
def saveProgress (t : Task) (owner : Owner) (now : Time) (db : DB) : Res Bool × DB :=
  (.ok (db.tasks.countP (held t.id owner) = 1), { db with
    tasks :=
      Table.set (held t.id owner) (saved t now) db.tasks })

/-- The row of a task its worker is done with for now. -/
def released (t : Task) (state : TaskState) (result : String) (now : Time)
    (r : TaskRow) : TaskRow :=
  { r with
    state
    result
    history := t.history
    pending := t.pending
    steps := t.steps
    leaseOwner := none
    leaseUntil := none
    updatedAt := now }

/-- Source: `store.go` `SetTaskState` -/
def setTaskState (t : Task) (owner : Owner) (state : TaskState) (result : String) (now : Time)
    (db : DB) : Res Bool × DB :=
  (.ok (db.tasks.countP (held t.id owner) = 1), { db with
    tasks :=
      Table.set (held t.id owner) (released t state result now) db.tasks })

end DB

/-- The updates `ResumeTask` is called with. -/
inductive Resume where
  /-- The pending call is answered. Source: `tasks.go` `completePending` -/
  | complete (callID out : String)
  /-- An approved command ran. Source: `voice.go` `SubmitApproval` -/
  | approved (a : DeviceApproval) (out : String)
  /-- An approval can no longer be used; `out` is what an agent task is told.
  Source: `voice.go` `dropApproval` -/
  | dropped (a : DeviceApproval) (why out : String)

/-- What an update makes of a task. -/
def Resume.apply (t : Task) : Resume → Option Task
  | .complete callID out => completePending t callID out
  | .approved a out =>
    if t.kind = .command then some { t with state := .succeeded, result := out }
    else completePending t a.callID out
  | .dropped a why out =>
    if t.kind = .command then some { t with state := .failed, result := why }
    else completePending t a.callID out

namespace DB

/-- A task that waits for the user. -/
def waiting (r : TaskRow) : Bool := r.state = .awaitingConfirmation || r.state = .awaitingApproval

/-- The row of a task that was updated while it waited. -/
def resumed (t : Task) (now : Time) (r : TaskRow) : TaskRow :=
  { r with
    state := t.state
    result := t.result
    history := t.history
    pending := t.pending
    updatedAt := now }

/-- Source: `store.go` `ResumeTask` -/
def resumeTask (id : UUID) (update : Resume) (now : Time) (db : DB) : Res Task × DB :=
  match db.taskRow id with
  | none => (.error .notFound, db)
  | some r =>
    if waiting r then
      match update.apply r.toTask with
      | none => (.error .failed, db)
      | some t =>
        (.ok t, { db with
          tasks := Table.set (fun r' => r'.id = id) (resumed t now) db.tasks })
    else (.error .notFound, db)

/-- A task of this user that can still be cancelled. -/
def cancellable (tenant : UUID) (user : String) (id : UUID) (r : TaskRow) : Bool :=
  r.id = id ∧ r.tenantID = tenant ∧ r.userID = user ∧ r.state.terminal = false

/-- The row of a task its user cancelled. -/
def cancelRow (now : Time) (r : TaskRow) : TaskRow :=
  { r with
    state := .cancelled
    result := "Cancelled by the user."
    leaseOwner := none
    leaseUntil := none
    updatedAt := now }

/-- Source: `store.go` `CancelTask` -/
def cancelTask (tenant : UUID) (user : String) (id : UUID) (now : Time) (db : DB) : Res Task × DB :=
  match db.tasks.find? (cancellable tenant user id) with
  | none => (found (db.task tenant user id), db)
  | some r =>
    (.ok (cancelRow now r).toTask, { db with
      tasks := Table.set (cancellable tenant user id) (cancelRow now) db.tasks
      confirmations := Table.set (fun c => c.taskID = some id ∧ c.state = .pending)
        (fun c => { c with state := .cancelled }) db.confirmations })

/-! ### Confirmations -/

/-- The row of a confirmation. -/
def confirmationRow (db : DB) (id : UUID) : Option Confirmation :=
  row Confirmation.id id db.confirmations

/-- Source: `store.go` `CreateConfirmation` -/
def createConfirmation (c : Confirmation) (db : DB) : Res Unit × DB :=
  if (db.confirmationRow c.id).isSome || (db.conversation c.conversationID).isNone ||
      c.taskID.any (fun t => (db.taskRow t).isNone) || c.action.isNone then
    (.error .failed, db)
  else
    (.ok (), { db with
      confirmations := Table.insert { c with state := .pending } db.confirmations })

/-- Source: `store.go` `Confirmation` -/
def confirmation (db : DB) (conversation id : UUID) : Option Confirmation :=
  db.confirmations.find? fun c => c.id = id ∧ c.conversationID = conversation

/-- A confirmation that may be settled now. Source: `store.go` `Settle` -/
def settleable (conversation id : UUID) (turn : ℤ) (confirm : Bool) (now : Time)
    (c : Confirmation) : Bool :=
  c.id = id ∧ c.conversationID = conversation ∧ c.state = .pending ∧ now < c.expiresAt ∧
    (confirm = false ∨ c.askedTurn.any fun a => a < turn)

/-- The state a settled confirmation gets. -/
def settledState (confirm : Bool) : ConfirmationState := if confirm then .confirmed else .cancelled

/-- Source: `store.go` `Settle` -/
def settle (conversation id : UUID) (turn : ℤ) (confirm : Bool) (now : Time) (db : DB) :
    Res Confirmation × DB :=
  match db.confirmations.find? (settleable conversation id turn confirm now) with
  | none => (.error .notFound, db)
  | some c =>
    (.ok { c with state := settledState confirm }, { db with
      confirmations :=
        Table.set (settleable conversation id turn confirm now)
        (fun c => { c with state := settledState confirm }) db.confirmations })

/-- The row after its question reached the user: the first time counts. -/
def asked (turn : ℤ) (c : Confirmation) : Confirmation :=
  { c with askedTurn := some (c.askedTurn.getD turn) }

/-- Source: `store.go` `MarkAsked` -/
def markAsked (id : UUID) (turn : ℤ) (db : DB) : Res Unit × DB :=
  (.ok (), { db with confirmations := Table.set (·.id = id) (asked turn) db.confirmations })

/-- A confirmation a voice call asked for. -/
def askedBy (conversation : UUID) (callID : String) (c : Confirmation) : Bool :=
  c.conversationID = conversation ∧ c.callID = callID ∧ c.taskID = none

/-- Source: `store.go` `MarkCallAsked` -/
def markCallAsked (conversation : UUID) (callID : String) (turn : ℤ) (db : DB) : Res Bool × DB :=
  (.ok (0 < db.confirmations.countP (askedBy conversation callID)), { db with
    confirmations :=
      Table.set (askedBy conversation callID) (asked turn) db.confirmations })

/-- A pending confirmation past its time. -/
def overdue (now : Time) (c : Confirmation) : Bool := c.state = .pending ∧ c.expiresAt ≤ now

/-- Source: `store.go` `ExpireConfirmations` -/
def expireConfirmations (now : Time) (db : DB) : Res (List Confirmation) × DB :=
  (.ok (returning (overdue now) (fun c => { c with state := .expired }) db.confirmations),
    { db with
      confirmations :=
        Table.set (overdue now) (fun c => { c with state := .expired }) db.confirmations })

/-! ### Events -/

/-- The row of a pending confirmation that moves to another conversation: its question has not been
asked there. -/
def moved (target : UUID) (c : Confirmation) : Confirmation :=
  { c with conversationID := target, askedTurn := none }

/-- The conversation an event for `conversation` goes to, and whether it is live.
Source: `store.go` `AddEvent` -/
def eventTarget (conversation : UUID) (now : Time) (db : DB) : UUID × Bool :=
  match db.conversation conversation with
  | none => (conversation, false)
  | some c =>
    if c.closedAt = none then (conversation, true)
    else
      match (orderBy (fun o : Conversation => -o.createdAt) (db.conversations.filter fun o =>
        o.tenantID = c.tenantID ∧ o.userID = c.userID ∧ o.closedAt = none ∧
          now - conversationLifetime < o.createdAt)).head? with
      | some o => (o.id, true)
      | none => (conversation, false)

/-- Source: `store.go` `AddEvent`. Its `SELECT` locks nothing: a conversation could be opened or
closed before the `INSERT` and the `UPDATE` of the same transaction. Here the three are one step. -/
def addEvent (conversation : UUID) (payload : Payload) (confirmation : Option UUID) (now : Time)
    (db : DB) : Res (UUID × Bool) × DB :=
  let target := db.eventTarget conversation now
  if (db.conversation target.1).isNone then (.error .failed, db)
  else
    (.ok target, { db with
      events := Table.insert ⟨db.nextEvent, target.1, payload, confirmation, none, now⟩ db.events
      nextEvent := db.nextEvent + 1
      confirmations :=
        if target.1 = conversation then db.confirmations
        else Table.set (fun c => some c.id = confirmation ∧ c.state = .pending) (moved target.1)
          db.confirmations })

/-- An event of this user's ended conversations that was never heard.
Source: `store.go` `CarryOverEvents` -/
def unheard (conversation tenant : UUID) (user : String) (window now : Time) (db : DB)
    (e : EventRow) : Bool :=
  (db.conversations.any fun c => c.id = e.conversationID ∧ c.tenantID = tenant ∧ c.userID = user ∧
    c.id ≠ conversation ∧ c.closedAt ≠ none) && e.ackedTurn = none && now - window < e.createdAt

/-- Source: `store.go` `CarryOverEvents` -/
def carryOverEvents (conversation tenant : UUID) (user : String) (window now : Time) (db : DB) :
    Res ℕ × DB :=
  let p := unheard conversation tenant user window now db
  let carried := db.events.filter p
  if carried ≠ [] ∧ (db.conversation conversation).isNone then (.error .failed, db)
  else
    (.ok carried.length, { db with
      events := Table.set p (fun e => { e with conversationID := conversation }) db.events
      confirmations :=
        Table.set (fun c => some c.id ∈ carried.map EventRow.confirmationID ∧ c.state = .pending)
          (moved conversation) db.confirmations })

/-- Source: `store.go` `Events` -/
def eventsAfter (db : DB) (conversation : UUID) (after limit : ℕ) : List EventRow :=
  (orderBy (fun e : EventRow => e.id)
    (db.events.filter fun e => e.conversationID = conversation ∧ after < e.id)).take limit

/-- Source: `store.go` `LastAcked` -/
def lastAcked (db : DB) (conversation : UUID) : ℕ :=
  ((db.events.filter fun e => e.conversationID = conversation ∧ e.ackedTurn ≠ none).map
    EventRow.id).foldl max 0

/-- The event a conversation acknowledges. -/
def acks (conversation : UUID) (id : ℕ) (e : EventRow) : Bool :=
  e.id = id ∧ e.conversationID = conversation

/-- Source: `store.go` `AckEvent` -/
def ackEvent (conversation : UUID) (id : ℕ) (turn : ℤ) (db : DB) : Res (Option UUID) × DB :=
  (found ((db.events.find? (acks conversation id)).map EventRow.confirmationID), { db with
    events :=
      Table.set (acks conversation id)
        (fun e => { e with ackedTurn := some (e.ackedTurn.getD turn) })
      db.events })

/-! ### Devices and approvals -/

/-- Source: `store.go` `UpsertDevice` -/
def upsertDevice (d : Device) (db : DB) : Res Device × DB :=
  let same (x : Device) : Bool := x.tenantID = d.tenantID ∧ x.userID = d.userID ∧ x.name = d.name
  let f (x : Device) : Device := { x with
    address := d.address
    serverName := d.serverName
    caPEM := d.caPEM
    clientCertPEM := d.clientCertPEM
    clientKeySealed := d.clientKeySealed }
  match db.devices.find? same with
  | some x => (.ok (f x), { db with devices := Table.set same f db.devices })
  | none =>
    if (row Device.id d.id db.devices).isSome || d.name.length = 0 || 64 < d.name.length then
      (.error .failed, db)
    else (.ok d, { db with devices := Table.insert d db.devices })

/-- Source: `store.go` `Devices`. They come by name; names are unique for a user, so nothing here
depends on the order. -/
def userDevices (db : DB) (tenant : UUID) (user : String) : List Device :=
  db.devices.filter fun d => d.tenantID = tenant ∧ d.userID = user

/-- Source: `store.go` `DeviceByID` -/
def deviceByID (db : DB) (id : UUID) : Option Device := row Device.id id db.devices

/-- Source: `store.go` `DeleteDevice`; its approvals go with it (`ON DELETE CASCADE`). -/
def deleteDevice (tenant : UUID) (user : String) (id : UUID) (db : DB) : Res Bool × DB :=
  let p (d : Device) : Bool := d.id = id ∧ d.tenantID = tenant ∧ d.userID = user
  (.ok (db.devices.countP p = 1), { db with
    devices := Table.delete p db.devices
    approvals := if db.devices.any p then Table.delete (·.deviceID = id) db.approvals
      else db.approvals })

/-- The row of an approval. -/
def approvalRow (db : DB) (approvalID : String) : Option DeviceApproval :=
  row DeviceApproval.approvalID approvalID db.approvals

/-- Source: `store.go` `SaveApproval` -/
def saveApproval (a : DeviceApproval) (db : DB) : Res Unit × DB :=
  if (db.approvalRow a.approvalID).isSome || (db.deviceByID a.deviceID).isNone ||
      (db.taskRow a.taskID).isNone then
    (.error .failed, db)
  else (.ok (), { db with approvals := Table.insert a db.approvals })

/-- Source: `store.go` `PendingApprovals` -/
def pendingApprovals (db : DB) (tasks : List UUID) (now : Time) :
    List (DeviceApproval × String) :=
  db.approvals.filterMap fun a =>
    if a.taskID ∈ tasks ∧ now < a.expiresAt then
      (db.deviceByID a.deviceID).map fun d => (a, d.name)
    else none

/-- Source: `store.go` `Approval`. The payload is not read. -/
def approval (db : DB) (tenant : UUID) (user approvalID : String) (now : Time) :
    Option DeviceApproval :=
  (db.approvals.find? fun a => a.approvalID = approvalID && now < a.expiresAt &&
    (db.taskRow a.taskID).any fun t => t.tenantID = tenant ∧ t.userID = user).map
      fun a => { a with payload := "" }

/-- Source: `store.go` `ExpireApprovals` -/
def expireApprovals (now : Time) (db : DB) : Res (List DeviceApproval) × DB :=
  (.ok (db.approvals.filter fun a => a.expiresAt < now), { db with
    approvals :=
      Table.delete (fun a => a.expiresAt < now) db.approvals })

/-- Source: `store.go` `DeleteApproval` -/
def deleteApproval (approvalID : String) (db : DB) : Res Unit × DB :=
  (.ok (), { db with approvals := Table.delete (·.approvalID = approvalID) db.approvals })

/-! ### Memory jobs -/

/-- The job of a conversation. -/
def memoryJob (db : DB) (id : UUID) : Option MemoryJob :=
  row MemoryJob.conversationID id db.memoryJobs

/-- Source: `store.go` `QueueMemoryJob` -/
def queueMemoryJob (conversation : UUID) (now : Time) (db : DB) : Res Unit × DB :=
  if (db.conversation conversation).isNone then (.error .failed, db)
  else if (db.memoryJob conversation).isSome then (.ok (), db)
  else (.ok (), { db with
    memoryJobs := Table.insert
      { conversationID := conversation, state := .queued, notBefore := now } db.memoryJobs })

/-- Source: `store.go` `LeaseMemoryJob`, the row that its subquery selects -/
def nextMemoryJob (locked : List UUID) (now : Time) (db : DB) : Option MemoryJob :=
  let due (j : MemoryJob) : Bool :=
    (j.state = .queued || (j.state = .running && j.leaseUntil.any fun t => t < now)) &&
      j.notBefore ≤ now && j.conversationID ∉ locked
  (orderBy MemoryJob.notBefore (db.memoryJobs.filter due)).head?

/-- Source: `store.go` `LeaseMemoryJob` -/
def leaseMemoryJob (duration : Time) (locked : List UUID) (now : Time) (db : DB) :
    Res (UUID × ℕ) × DB :=
  match db.nextMemoryJob locked now with
  | none => (.error .notFound, db)
  | some j =>
    (.ok (j.conversationID, j.attempts + 1), { db with
      memoryJobs :=
        Table.set (·.conversationID = j.conversationID) (fun j => { j with
        state := .running
        attempts := j.attempts + 1
        leaseUntil := some (now + duration) }) db.memoryJobs })

/-- Source: `store.go` `FinishMemoryJob` -/
def finishMemoryJob (conversation : UUID) (state : MemoryState) (retryAfter now : Time) (db : DB) :
    Res Unit × DB :=
  (.ok (), { db with
    memoryJobs :=
      Table.set (·.conversationID = conversation) (fun j => { j with
      state
      leaseUntil := none
      notBefore := now + retryAfter }) db.memoryJobs })

/-! ### Notifications -/

/-- Source: `store.go` `AddNotification` -/
def addNotification (n : Notification) (now : Time) (db : DB) : Res Unit × DB :=
  (.ok (), { db with
    notifications := Table.insert { n with id := db.nextNotification, createdAt := now }
      db.notifications
    nextNotification := db.nextNotification + 1 })

/-- Source: `store.go` `ClaimNotifications` -/
def claimNotifications (consumer : String) (limit : ℕ) (duration : Time) (maxAttempts : ℕ)
    (maxAge : Time) (locked : List ℕ) (now : Time) (db : DB) : Res (List Notification) × DB :=
  let due (n : NotificationRow) : Bool :=
    n.doneAt = none && (n.claimedUntil.all fun t => t < now) && n.attempts < maxAttempts &&
      now - maxAge < n.createdAt && n.id ∉ locked
  let claimed := (orderBy (fun n : NotificationRow => n.id)
    (db.notifications.filter due)).take limit
  (.ok (claimed.map NotificationRow.toNotification), { db with
    notifications :=
      Table.set (fun n => n.id ∈ claimed.map fun n => n.id) (fun n => { n with
      claimedBy := some consumer
      claimedUntil := some (now + duration)
      attempts := n.attempts + 1 }) db.notifications })

/-- Source: `store.go` `CompleteNotifications` -/
def completeNotifications (ids : List ℕ) (now : Time) (db : DB) : Res Unit × DB :=
  (.ok (), { db with
    notifications :=
      Table.set (fun n => n.id ∈ ids ∧ n.doneAt = none) (fun n => { n with doneAt := some now })
      db.notifications })

/-- Source: `store.go` `PurgeNotifications` -/
def purgeNotifications (keep now : Time) (db : DB) : Res ℕ × DB :=
  let p (n : NotificationRow) : Bool := n.createdAt < now - keep
  (.ok (db.notifications.countP p), { db with notifications := Table.delete p db.notifications })

end DB

/-! ## Statements -/

/-- The methods of the store, with their arguments. -/
inductive Query where
  | createConversation (c : Conversation)
  | conversation (id : UUID)
  | advanceTurn (id : UUID) (turn : ℤ)
  | recordTurn (id : UUID) (role itemID : String) (turn : ℤ) (text : String)
  | closeConversation (id : UUID)
  | transcript (id : UUID)
  | purgeTranscripts (retention : Time)
  | closeAbandoned
  | toolCall (conversation : UUID) (callID : String)
  | saveToolCall (conversation : UUID) (callID name : String) (r : CallResult)
  | createTask (t : Task)
  | task (tenant : UUID) (user : String) (id : UUID)
  | tasks (tenant : UUID) (user : String) (limit : ℕ)
  | leaseTask (owner : Owner) (duration : Time)
  | renewLease (id : UUID) (owner : Owner) (duration : Time)
  | saveProgress (t : Task) (owner : Owner)
  | setTaskState (t : Task) (owner : Owner) (state : TaskState) (result : String)
  | resumeTask (id : UUID) (update : Resume)
  | cancelTask (tenant : UUID) (user : String) (id : UUID)
  | createConfirmation (c : Confirmation)
  | confirmation (conversation id : UUID)
  | settle (conversation id : UUID) (turn : ℤ) (confirm : Bool)
  | markAsked (id : UUID) (turn : ℤ)
  | markCallAsked (conversation : UUID) (callID : String) (turn : ℤ)
  | expireConfirmations
  | addEvent (conversation : UUID) (payload : Payload) (confirmation : Option UUID)
  | carryOverEvents (conversation tenant : UUID) (user : String) (window : Time)
  | events (conversation : UUID) (after limit : ℕ)
  | lastAcked (conversation : UUID)
  | ackEvent (conversation : UUID) (id : ℕ) (turn : ℤ)
  | upsertDevice (d : Device)
  | devices (tenant : UUID) (user : String)
  | deviceByID (id : UUID)
  | deleteDevice (tenant : UUID) (user : String) (id : UUID)
  | saveApproval (a : DeviceApproval)
  | pendingApprovals (tasks : List UUID)
  | approval (tenant : UUID) (user approvalID : String)
  | expireApprovals
  | deleteApproval (approvalID : String)
  | queueMemoryJob (conversation : UUID)
  | leaseMemoryJob (duration : Time)
  | finishMemoryJob (conversation : UUID) (state : MemoryState) (retryAfter : Time)
  | addNotification (n : Notification)
  | claimNotifications (consumer : String) (limit : ℕ) (duration : Time) (maxAttempts : ℕ)
      (maxAge : Time)
  | completeNotifications (ids : List ℕ)
  | purgeNotifications (keep : Time)

namespace Query

/-- What a method returns when it goes through. -/
abbrev Result : Query → Type
  | createConversation _ | advanceTurn .. | recordTurn .. | saveToolCall .. | createTask _
  | createConfirmation _ | markAsked .. | saveApproval _ | deleteApproval _ | queueMemoryJob _
  | finishMemoryJob .. | addNotification _ | completeNotifications _ => Unit
  | closeConversation _ | renewLease .. | saveProgress .. | setTaskState .. | markCallAsked ..
  | deleteDevice .. => Bool
  | purgeTranscripts _ | carryOverEvents .. | lastAcked _ | purgeNotifications _ => ℕ
  | conversation _ => Conversation
  | transcript _ => List TurnRow
  | closeAbandoned => List UUID
  | toolCall .. => CallResult
  | task .. | leaseTask .. | resumeTask .. | cancelTask .. => Task
  | tasks .. => List Task
  | confirmation .. | settle .. => Confirmation
  | expireConfirmations => List Confirmation
  | addEvent .. => UUID × Bool
  | events .. => List EventRow
  | ackEvent .. => Option UUID
  | upsertDevice _ | deviceByID _ => Device
  | devices .. => List Device
  | pendingApprovals _ => List (DeviceApproval × String)
  | approval .. => DeviceApproval
  | expireApprovals => List DeviceApproval
  | leaseMemoryJob _ => UUID × ℕ
  | claimNotifications .. => List Notification

/-- Run a method. `locked` are the rows that `SKIP LOCKED` skips. -/
def exec (locked : List ℕ) (now : Time) (db : DB) : (q : Query) → Res q.Result × DB
  | createConversation c => db.createConversation c now
  | conversation id => (found (db.conversation id), db)
  | advanceTurn id turn => db.advanceTurn id turn
  | recordTurn id role itemID turn text => db.recordTurn id role itemID turn text now
  | closeConversation id => db.closeConversation id now
  | transcript id => (.ok (db.transcript id), db)
  | purgeTranscripts retention => db.purgeTranscripts retention now
  | closeAbandoned => db.closeAbandoned now
  | toolCall k callID => (found (db.toolCall k callID), db)
  | saveToolCall k callID name r => db.saveToolCall k callID name r
  | createTask t => db.createTask t now
  | task tenant user id => (found (db.task tenant user id), db)
  | tasks tenant user limit => (.ok (db.listTasks tenant user limit), db)
  | leaseTask owner duration => db.leaseTask owner duration locked now
  | renewLease id owner duration => db.renewLease id owner duration now
  | saveProgress t owner => db.saveProgress t owner now
  | setTaskState t owner state result => db.setTaskState t owner state result now
  | resumeTask id update => db.resumeTask id update now
  | cancelTask tenant user id => db.cancelTask tenant user id now
  | createConfirmation c => db.createConfirmation c
  | confirmation k id => (found (db.confirmation k id), db)
  | settle k id turn confirm => db.settle k id turn confirm now
  | markAsked id turn => db.markAsked id turn
  | markCallAsked k callID turn => db.markCallAsked k callID turn
  | expireConfirmations => db.expireConfirmations now
  | addEvent k payload c => db.addEvent k payload c now
  | carryOverEvents k tenant user window => db.carryOverEvents k tenant user window now
  | events k after limit => (.ok (db.eventsAfter k after limit), db)
  | lastAcked k => (.ok (db.lastAcked k), db)
  | ackEvent k id turn => db.ackEvent k id turn
  | upsertDevice d => db.upsertDevice d
  | devices tenant user => (.ok (db.userDevices tenant user), db)
  | deviceByID id => (found (db.deviceByID id), db)
  | deleteDevice tenant user id => db.deleteDevice tenant user id
  | saveApproval a => db.saveApproval a
  | pendingApprovals ids => (.ok (db.pendingApprovals ids now), db)
  | approval tenant user approvalID => (found (db.approval tenant user approvalID now), db)
  | expireApprovals => db.expireApprovals now
  | deleteApproval approvalID => db.deleteApproval approvalID
  | queueMemoryJob k => db.queueMemoryJob k now
  | leaseMemoryJob duration => db.leaseMemoryJob duration locked now
  | finishMemoryJob k state retryAfter => db.finishMemoryJob k state retryAfter now
  | addNotification n => db.addNotification n now
  | claimNotifications consumer limit duration maxAttempts maxAge =>
    db.claimNotifications consumer limit duration maxAttempts maxAge locked now
  | completeNotifications ids => db.completeNotifications ids now
  | purgeNotifications keep => db.purgeNotifications keep now

end Query

/-- The tables invariants speak of. -/
inductive Tab where
  | tasks
  | confirmations
  | events
  | devices
  | approvals
  | conversations
  | memoryJobs
  | notifications
  deriving DecidableEq

/-- The tables a method may change. -/
def Query.writes : Query → List Tab
  | createTask _ | leaseTask .. | renewLease .. | saveProgress .. | setTaskState ..
  | resumeTask .. => [.tasks]
  | cancelTask .. => [.tasks, .confirmations]
  | createConfirmation _ | settle .. | markAsked .. | markCallAsked .. | expireConfirmations =>
    [.confirmations]
  | addEvent .. | carryOverEvents .. => [.events, .confirmations]
  | ackEvent .. => [.events]
  | upsertDevice _ => [.devices]
  | deleteDevice .. => [.devices, .approvals]
  | saveApproval _ | deleteApproval _ | expireApprovals => [.approvals]
  | createConversation _ | advanceTurn .. | closeConversation _ | closeAbandoned => [.conversations]
  | queueMemoryJob _ | leaseMemoryJob _ | finishMemoryJob .. => [.memoryJobs]
  | addNotification _ | claimNotifications .. | completeNotifications _ | purgeNotifications _ =>
    [.notifications]
  | _ => []

/-- Two databases have the same rows in a table. -/
def DB.Same (db db' : DB) : Tab → Prop
  | .tasks => db'.tasks = db.tasks
  | .confirmations => db'.confirmations = db.confirmations
  | .events => db'.events = db.events ∧ db'.nextEvent = db.nextEvent
  | .devices => db'.devices = db.devices
  | .approvals => db'.approvals = db.approvals
  | .conversations => db'.conversations = db.conversations
  | .memoryJobs => db'.memoryJobs = db.memoryJobs
  | .notifications =>
    db'.notifications = db.notifications ∧ db'.nextNotification = db.nextNotification

/-- **Frame rule**: a method leaves alone the tables it does not write. -/
theorem Query.exec_same {locked : List ℕ} {now : Time} {db : DB} {q : Query} (t : Tab)
    (h : t ∉ q.writes) : db.Same (q.exec locked now db).2 t := by
  cases q
  all_goals simp only [exec, DB.createConversation, DB.recordTurn, DB.saveToolCall, DB.createTask,
    DB.leaseTask, DB.resumeTask, DB.cancelTask, DB.createConfirmation, DB.settle, DB.addEvent,
    DB.carryOverEvents, DB.upsertDevice, DB.saveApproval, DB.queueMemoryJob, DB.leaseMemoryJob]
  all_goals repeat' split
  all_goals cases t <;> first | rfl | exact ⟨rfl, rfl⟩ | exact absurd (by simp [writes]) h

end Jarvis.Orchestrator
