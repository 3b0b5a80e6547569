import Jarvis.Json
import Mathlib.Data.Int.Notation

/-!
# The orchestrator's data

The records of `store.go` and `execute.go`, and the messages the orchestrator exchanges with the
agent worker and with devices. Ids are numbers, times are points on one integer scale, and a
`NullUUID` or a nullable column is an `Option`. Columns and fields that no function of the model
reads (titles of log lines, PEM blobs, metrics) are left out.
-/

namespace Jarvis.Orchestrator

/-- A UUID. -/
abbrev UUID := ℕ

/-- A point in time, or a length of time. -/
abbrev Time := ℤ

/-- The name under which a worker leases tasks: its process and its number in it.
Source: `tasks.go` `Run` (`"%s/%d"`) -/
structure Owner where
  /-- The engine's own id. -/
  engine : ℕ
  /-- The worker's number. -/
  index : ℕ
  deriving DecidableEq, Repr

/-- Task states. Source: `store.go` -/
inductive TaskState where
  | queued
  | running
  | awaitingConfirmation
  | awaitingApproval
  | succeeded
  | failed
  | cancelled
  deriving DecidableEq, Repr

/-- Source: `store.go` `Terminal` -/
def TaskState.terminal : TaskState → Bool
  | .succeeded | .failed | .cancelled => true
  | _ => false

/-- Task kinds: an agent loop, or a single device command. Source: `store.go` -/
inductive TaskKind where
  | agent
  | command
  deriving DecidableEq, Repr

/-- Confirmation states. Source: `0001_init.sql` `confirmations` -/
inductive ConfirmationState where
  | pending
  | confirmed
  | cancelled
  | expired
  deriving DecidableEq, Repr

/-- The realtime provider of a session. Source: `provider.proto` -/
inductive Provider where
  | unspecified
  | anthropic
  | openAI
  | xAI
  deriving DecidableEq, Repr

/-- What a tool name runs: a built-in tool, or a tool of an integration.
Source: `catalog.go` -/
inductive Kind where
  | recall
  | remember
  | start
  | confirm
  | cancel
  | device
  | mcp
  | other (name : String)
  deriving DecidableEq, Repr

/-- The stored name of a kind. Source: `catalog.go` -/
def Kind.name : Kind → String
  | .recall => "recall_memory"
  | .remember => "remember"
  | .start => "start_task"
  | .confirm => "confirm_action"
  | .cancel => "cancel_action"
  | .device => "run_on_computer"
  | .mcp => "mcp"
  | .other s => s

/-- The kind a stored name stands for. -/
def Kind.ofName (s : String) : Kind :=
  if s = "recall_memory" then .recall else
  if s = "remember" then .remember else
  if s = "start_task" then .start else
  if s = "confirm_action" then .confirm else
  if s = "cancel_action" then .cancel else
  if s = "run_on_computer" then .device else
  if s = "mcp" then .mcp else .other s

/-- Source: `store.go` `Target` -/
structure Target where
  kind : Kind
  integrationID : String := ""
  integration : String := ""
  tool : String := ""
  title : String := ""
  readOnly : Bool := false
  /-- How the tool was declared to the model. -/
  description : String := ""
  parameters : String := ""
  deriving DecidableEq, Repr

/-- What each tool name runs. Source: `catalog.go` `catalog.targets` -/
abbrev Tools := List (String × Target)

/-- Source: `store.go` `Conversation` -/
structure Conversation where
  id : UUID
  tenantID : UUID
  userID : String
  sessionID : String
  provider : Provider
  locale : String
  tools : Tools
  userTurn : ℤ := 0
  closedAt : Option Time := none
  createdAt : Time := 0

/-- Source: `store.go` `Task`. A nil `History` or `Pending` is stored as `[]` (`orEmpty`), and
stands here as that. -/
structure Task where
  id : UUID
  tenantID : UUID
  userID : String
  conversationID : Option UUID
  kind : TaskKind
  provider : Provider
  goal : String
  state : TaskState
  result : String := ""
  steps : ℕ := 0
  tools : Tools := []
  history : Json := .arr []
  pending : Json := .arr []
  deadline : Time
  createdAt : Time := 0
  updatedAt : Time := 0

/-- A row of `tasks`: the task and its lease. Source: `0001_init.sql` -/
structure TaskRow extends Task where
  leaseOwner : Option Owner := none
  leaseUntil : Option Time := none

/-- Source: `store.go` `Confirmation`. `action` is `none` for a nil `RawMessage`. -/
structure Confirmation where
  id : UUID
  conversationID : UUID
  taskID : Option UUID
  callID : String
  action : Option Json
  summary : String
  askedTurn : Option ℤ
  state : ConfirmationState
  expiresAt : Time

/-- What an event of a conversation says. Source: `orchestrator.proto` `ConversationEvent` -/
inductive EventKind where
  | taskFinished (task : UUID) (state : TaskState) (result : String)
  | confirmationRequested (confirmation task : UUID) (summary : String)
  | deviceApprovalRequested (approvalID deviceName summary : String)
  deriving DecidableEq, Repr

/-- The payload of an event. Source: `orchestrator.proto` `ConversationEvent` -/
structure Payload where
  event : EventKind
  message : String
  deriving DecidableEq, Repr

/-- A row of `events`. Source: `0001_init.sql` -/
structure EventRow where
  id : ℕ
  conversationID : UUID
  payload : Payload
  confirmationID : Option UUID
  ackedTurn : Option ℤ
  createdAt : Time

/-- Source: `store.go` `CallResult` -/
structure CallResult where
  output : String
  isError : Bool
  ackRequired : Bool := false
  deriving DecidableEq, Repr

/-- A row of `tool_calls`. Source: `0001_init.sql` -/
structure ToolCallRow where
  conversationID : UUID
  callID : String
  name : String
  result : CallResult

/-- Source: `store.go` `Turn`, with its conversation -/
structure TurnRow where
  conversationID : UUID
  role : String
  itemID : String
  userTurn : ℤ
  text : String
  createdAt : Time

/-- A client key that the Vault has sealed for a tenant and a device, with the purpose of device
keys. Source: `vaultclient.go` `Binding`, `clients.go` `PurposeDeviceKey` -/
structure SealedKey where
  tenantID : UUID
  subject : UUID
  keyPEM : String
  deriving DecidableEq, Repr

/-- What a device is reached with. -/
structure DeviceCredentials where
  caPEM : String
  clientCertPEM : String
  clientKeyPEM : String
  deriving DecidableEq, Repr

/-- Source: `store.go` `Device` -/
structure Device where
  id : UUID
  tenantID : UUID
  userID : String
  name : String
  address : String
  serverName : String
  caPEM : String
  clientCertPEM : String
  clientKeySealed : SealedKey
  deriving DecidableEq, Repr

/-- Source: `store.go` `DeviceApproval` -/
structure DeviceApproval where
  approvalID : String
  deviceID : UUID
  taskID : UUID
  callID : String
  command : Json
  payload : String
  expiresAt : Time

/-- Notification kinds. Source: `store.go` -/
inductive NotifyKind where
  | approvalNeeded
  | confirmationNeeded
  | taskFinished
  deriving DecidableEq, Repr

/-- Source: `store.go` `Notification` -/
structure Notification where
  id : ℕ := 0
  tenantID : UUID
  userID : String
  kind : NotifyKind
  taskID : UUID
  taskState : TaskState
  createdAt : Time := 0
  deriving DecidableEq, Repr

/-- A row of `notifications`: the notification and its claim. Source: `0002_notifications.sql` -/
structure NotificationRow extends Notification where
  claimedBy : Option String := none
  claimedUntil : Option Time := none
  attempts : ℕ := 0
  doneAt : Option Time := none

/-- States of a memory job. Source: `0001_init.sql` `memory_jobs` -/
inductive MemoryState where
  | queued
  | running
  | done
  | failed
  deriving DecidableEq, Repr

/-- A row of `memory_jobs`. Source: `0001_init.sql` -/
structure MemoryJob where
  conversationID : UUID
  state : MemoryState
  attempts : ℕ := 0
  leaseUntil : Option Time := none
  notBefore : Time

/-! ## What tools exchange -/

/-- Who a tool runs for. Source: `execute.go` `caller` -/
structure Caller where
  tenant : UUID
  user : String
  conversation : Option UUID := none
  provider : Provider := .unspecified
  locale : String := ""
  /-- Set for calls made by a background task. -/
  task : Option UUID := none
  callID : String := ""
  /-- The user turn of a voice call. -/
  turn : ℤ := 0
  deriving DecidableEq, Repr

/-- What a confirmation runs. Source: `execute.go` `action` -/
structure Action where
  kind : Kind
  integrationID : String
  integration : String
  tool : String
  title : String
  /-- The arguments, as JSON text. -/
  arguments : String
  deriving DecidableEq, Repr

/-- A device command. Source: `device.proto` `ExecuteCommandRequest` -/
structure Command where
  program : String
  args : List String
  workingDirectory : String
  deriving DecidableEq, Repr

/-- Source: `device.proto` `ApprovalRequired` -/
structure ApprovalRequired where
  approvalID : String
  payload : String
  expireTime : Option Time
  deriving DecidableEq, Repr

/-- Source: `device.proto` `CommandResult` -/
structure CommandResult where
  exitCode : ℤ
  stdout : String
  stderr : String
  stdoutTruncated : Bool
  stderrTruncated : Bool
  timedOut : Bool
  deriving DecidableEq, Repr

/-- Source: `device.proto` `ExecuteCommandResponse` -/
inductive DeviceResponse where
  | result (r : CommandResult)
  | approvalRequired (r : ApprovalRequired)
  deriving DecidableEq, Repr

/-- An approver's signature. Source: `device.proto` `Approval` -/
structure Approval where
  approvalID : String
  approverID : String
  signature : String
  deriving DecidableEq, Repr

/-- A call that cannot complete now. Source: `execute.go` `pause`, `pendingApproval` -/
inductive Pause where
  /-- It needs the user's confirmation. -/
  | action (a : Action) (summary : String)
  /-- It needs a signed approval on a device. -/
  | approval (device : Device) (command : Command) (required : ApprovalRequired) (summary : String)

/-- gRPC status codes. -/
inductive Code where
  | canceled
  | unknown
  | invalidArgument
  | deadlineExceeded
  | notFound
  | alreadyExists
  | permissionDenied
  | resourceExhausted
  | failedPrecondition
  | aborted
  | outOfRange
  | unimplemented
  | internal
  | unavailable
  | dataLoss
  | unauthenticated
  deriving DecidableEq, Repr

/-- A gRPC error. -/
structure Status where
  code : Code
  message : String := ""
  deriving DecidableEq, Repr

/-! ## What the agent worker exchanges -/

/-- Source: `agent.proto` `ToolCall` -/
structure ToolCall where
  callID : String
  name : String
  argumentsJSON : String
  deriving DecidableEq, Repr

/-- Source: `agent.proto` `ModelStep` (its bytes, in the base64 text JSON has for them) -/
structure ModelStep where
  providerItems : String
  deriving DecidableEq, Repr

/-- One entry of an agent's history. Source: `agent.proto` `Item` -/
inductive Item where
  | userText (text : String)
  | modelStep (step : ModelStep)
  | toolResult (callID output : String)
  deriving DecidableEq, Repr

/-- Source: `agent.proto` `DecideResponse` -/
structure DecideResponse where
  text : String
  toolCalls : List ToolCall
  step : ModelStep
  deriving DecidableEq, Repr

/-- What the Vault answers when asked for a tenant's key. Source: `vaultclient` `KeySource` -/
inductive KeyAnswer where
  | key
  | noKey
  | unavailable
  deriving DecidableEq, Repr

/-! ## The audit trail -/

/-- Source: `auditlog` `Actor` -/
inductive Actor where
  | assistant
  | user (id : String)
  | device (name : String)
  deriving DecidableEq, Repr

/-- Source: `audit.proto` `Outcome` -/
inductive Outcome where
  | success
  | failure
  | denied
  deriving DecidableEq, Repr

/-- Source: `audit.go` `audit` -/
structure AuditEvent where
  tenant : UUID
  user : String
  actor : Actor
  action : String
  targetType : String
  targetID : String
  outcome : Outcome
  reason : String
  details : List (String × String)
  deriving DecidableEq, Repr

end Jarvis.Orchestrator
