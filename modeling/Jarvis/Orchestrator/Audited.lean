import Jarvis.Orchestrator.Protocol

/-!
# What the engine records in the audit trail

Every audit event of the engine is one of those listed here (`Audited`, `audits_body`). On the way
it is shown which functions have no part in the steps by which `CallTool` runs a call once
(`Aside`).
-/

namespace Jarvis.Orchestrator

open Interleave Engine

variable {P : Params}

/-- Why a command was not run. Source: `voice.go` `SubmitApproval`, `memory.go` `expireApprovals` -/
inductive NotRun where
  | rejected
  | askedAgain
  | expired
  deriving DecidableEq, Repr

def NotRun.reason : NotRun → String
  | .rejected => "approval_rejected"
  | .askedAgain => "approval_asked_again"
  | .expired => "approval_expired"

/-- The audit events of the engine, without their owner. -/
inductive Audited where
  /-- Source: `execute.go` `auditCommand` -/
  | commandRan (device program : String) (failed approved : Bool)
  /-- Source: `voice.go` `awaitApproval`, `tasks.go` `pauseTask` -/
  | approvalRequested (task : UUID) (device program : String)
  /-- Source: `voice.go` `startTask` -/
  | taskStarted (task : UUID)
  /-- Source: `tasks.go` `finished` -/
  | taskFinished (task : UUID) (outcome : Outcome) (kind : TaskKind) (steps : ℕ)
  /-- Source: `voice.go` `askConfirmation`, `tasks.go` `pauseTask` -/
  | confirmationRequested (id : UUID) (action : Action)
  /-- Source: `voice.go` `settle` -/
  | settled (id : UUID) (action : Action) (confirm : Bool)
  /-- Source: `voice.go` `refuse` -/
  | confirmationBlocked (id : UUID)
  /-- Source: `voice.go` `dropApproval` -/
  | notRun (approvalID : String) (why : NotRun)
  deriving DecidableEq, Repr

def Audited.event (P : Params) (tenant : UUID) (user : String) : Audited → AuditEvent
  | .commandRan device program failed approved =>
    ⟨tenant, user, .device device, "command.ran", "device", device,
      if failed then .failure else .success, "",
      [("program", truncate program 256), ("approved", if approved then "true" else "false")]⟩
  | .approvalRequested task device program =>
    ⟨tenant, user, .assistant, "command.approval_requested", "task", P.uuidText task, .success, "",
      [("device", device), ("program", program)]⟩
  | .taskStarted task =>
    ⟨tenant, user, .assistant, "task.started", "task", P.uuidText task, .success, "",
      [("kind", "agent")]⟩
  | .taskFinished task outcome kind steps =>
    ⟨tenant, user, .assistant, "task.finished", "task", P.uuidText task, outcome, "",
      [("kind", kindName kind), ("steps", toString steps)]⟩
  | .confirmationRequested id action =>
    ⟨tenant, user, .assistant, "action.confirmation_requested", "confirmation", P.uuidText id,
      .success, "", actionDetails action⟩
  | .settled id action confirm =>
    ⟨tenant, user, .user user, if confirm then "action.confirmed" else "action.declined",
      "confirmation", P.uuidText id, .success, "", actionDetails action⟩
  | .confirmationBlocked id =>
    ⟨tenant, user, .assistant, "action.confirmation_blocked", "confirmation", P.uuidText id,
      .denied, "no_user_answer", []⟩
  | .notRun approvalID why =>
    ⟨tenant, user, .assistant, "command.not_run", "approval", approvalID, .denied, why.reason, []⟩

/-! ### There are no others -/

/-- The requests of the three steps of `CallTool`. -/
def Instr.callStep : Instr → Bool
  | .db (.toolCall ..) | .db (.advanceTurn ..) | .db (.saveToolCall ..) => true
  | _ => false

/-- Whatever is recorded is one of the events above. -/
def Instr.Audits (P : Params) : Instr → Prop
  | .audit e => ∃ (tenant : UUID) (user : String) (x : Audited), e = x.event P tenant user
  | _ => True

abbrev Audits (P : Params) {α : Type} (p : Op α) : Prop := p.Only fun i => i.Audits P

/-- A program that has no part in the steps of `CallTool`. -/
abbrev Aside {α : Type} (p : Op α) : Prop := p.Only fun i => i.callStep = false

/-- Both are true of a program, and are shown together. -/
abbrev Regular (P : Params) {α : Type} (p : Op α) : Prop :=
  p.Only fun i => i.callStep = false ∧ i.Audits P

theorem Regular.query (h : (Instr.db q).callStep = false) :
    Regular P (query q) := .call ⟨h, trivial⟩

theorem Regular.ask (hi : i.callStep = false) (h : i.Audits P) : Regular P (ask i) := .call ⟨hi, h⟩

theorem regular_emit (conversation : Option UUID) (payload : Payload) (confirmation : Option UUID) :
    Regular P (emit conversation payload confirmation) := by
  unfold emit
  repeat' with_reducible first
    | exact .pure _ | refine Regular.query ?_ | refine .bind ?_ fun _ => ?_ | split
  all_goals rfl

theorem regular_finished (t : Task) : Regular P (finished P t) := by
  unfold finished auditFinished audit onlyIf notify
  repeat' with_reducible first
    | exact .pure _ | refine Regular.query ?_ | exact regular_emit .. | refine Regular.ask ?_ ?_
    | refine .bind ?_ fun _ => ?_ | split
  all_goals first | rfl | exact ⟨_, _, .taskFinished .., rfl⟩

theorem regular_auditCommand (tenant : UUID) (user device program : String)
    (failed approved : Bool) :
    Regular P (auditCommand tenant user device program failed approved) :=
  .ask rfl ⟨_, _, .commandRan .., rfl⟩

theorem regular_execute (c : Caller) (target : Target) (args : String) :
    Regular P (execute P c target args) := by
  unfold execute dispatch callMCP runDevice execDevice remember recallMemory
  repeat' with_reducible first
    | exact .pure _ | refine Regular.query ?_ | exact regular_auditCommand ..
    | refine Regular.ask ?_ ?_ | refine .bind ?_ fun _ => ?_ | split
  all_goals first | rfl | trivial

theorem regular_settle (c : Caller) (id : UUID) (confirm : Bool) :
    Regular P (settle P c id confirm) := by
  unfold settle settleAction runAction callMCP refuse audit
  dsimp only
  repeat' with_reducible first
    | exact .pure _ | refine Regular.query ?_ | refine Regular.ask ?_ ?_
    | refine .bind ?_ fun _ => ?_ | split
  all_goals first
    | rfl | trivial | exact ⟨_, _, .settled _ _ true, rfl⟩ | exact ⟨_, _, .settled _ _ false, rfl⟩
    | exact ⟨_, _, .confirmationBlocked _, rfl⟩

theorem regular_startTask (c : Caller) (goal : String) : Regular P (startTask P c goal) := by
  unfold startTask taskIntro buildCatalog audit
  repeat' with_reducible first
    | exact .pure _ | refine Regular.query ?_ | refine Regular.ask ?_ ?_
    | refine .bind ?_ fun _ => ?_ | split
  all_goals first | rfl | trivial | exact ⟨_, _, .taskStarted _, rfl⟩

theorem regular_saveApproval (taskID : UUID) (callID : String) (device : Device) (command : Command)
    (req : ApprovalRequired) : Regular P (saveApproval taskID callID device command req) := by
  unfold saveApproval approvalExpiry
  repeat' with_reducible first
    | exact .pure _ | refine Regular.query ?_ | refine Regular.ask ?_ ?_
    | refine .bind ?_ fun _ => ?_ | split
  all_goals first | rfl | trivial

theorem regular_voiceCall (conv : Conversation) (c : Caller) (name args : String) :
    Regular P (voiceCall P conv c name args) := by
  unfold voiceCall voiceTool askConfirmation awaitApproval approvalExpiry audit notify
  repeat' with_reducible first
    | exact .pure _ | refine Regular.query ?_ | exact regular_execute .. | exact regular_settle ..
    | exact regular_startTask .. | exact regular_saveApproval .. | refine Regular.ask ?_ ?_
    | refine .bind ?_ fun _ => ?_ | split
  all_goals first
    | rfl | trivial | exact ⟨_, _, .confirmationRequested .., rfl⟩
    | exact ⟨_, _, .approvalRequested .., rfl⟩

theorem regular_dropApproval (a : DeviceApproval) (text : String) (why : NotRun) :
    Regular P (dropApproval P a text why.reason) := by
  unfold dropApproval audit onlyIf
  repeat' with_reducible first
    | exact .pure _ | refine Regular.query ?_ | exact regular_finished .. | refine Regular.ask ?_ ?_
    | refine .bind ?_ fun _ => ?_ | split
  all_goals first | rfl | exact ⟨_, _, .notRun _ why, rfl⟩

theorem regular_submitApproval (tenant : UUID) (user approvalID approverID signature : String) :
    Regular P (submitApproval P tenant user approvalID approverID signature) := by
  unfold submitApproval execDevice onlyIf
  repeat' with_reducible first
    | exact .pure _ | refine Regular.query ?_ | exact regular_finished .. |
      exact regular_auditCommand ..
    | exact regular_dropApproval _ _ .rejected | exact regular_dropApproval _ _ .askedAgain
    | refine Regular.ask ?_ ?_ | refine .bind ?_ fun _ => ?_ | split
  all_goals first
    | rfl | trivial | exact regular_dropApproval _ _ .rejected
    | exact regular_dropApproval _ _ .askedAgain

theorem regular_finish (owner : Owner) (t : Task) (items : List Item) (calls : List ToolCall)
    (state : TaskState) (result : String) :
    Regular P (finish P owner t items calls state result) := by
  unfold finish
  repeat' with_reducible first
    | exact .pure _ | refine Regular.query ?_ | exact regular_finished ..
    | refine .bind ?_ fun _ => ?_ | split
  all_goals rfl

theorem regular_pauseTask (owner : Owner) (t : Task) (items : List Item) (call : ToolCall)
    (calls : List ToolCall) (p : Pause) : Regular P (pauseTask P owner t items call calls p) := by
  unfold pauseTask expireWithoutConversation audit notify onlyIf
  repeat' with_reducible first
    | exact .pure _ | refine Regular.query ?_ | exact regular_saveApproval ..
    | exact regular_emit .. | refine Regular.ask ?_ ?_ | refine .bind ?_ fun _ => ?_ | split
  all_goals first
    | rfl | trivial | exact ⟨_, _, .confirmationRequested .., rfl⟩
    | exact ⟨_, _, .approvalRequested .., rfl⟩

theorem regular_runTask (owner : Owner) (t : Task) (items : List Item) (calls : List ToolCall)
    (transient : ℕ) : Regular P (runTask P owner t items calls transient) := by
  unfold runTask runCall runTool runDecide Engine.decide save
  repeat' with_reducible first
    | exact .pure _ | refine Regular.query ?_ | exact regular_execute .. | exact regular_finish ..
    | exact regular_pauseTask .. | refine Regular.ask ?_ ?_ | refine .bind ?_ fun _ => ?_ | split
  all_goals first | rfl | trivial

theorem regular_queueAll (ids : List UUID) : Regular P (queueAll ids) := by
  induction ids with
  | nil => exact .pure _
  | cons id ids ih => exact .bind (Regular.query rfl) fun _ => ih

theorem regular_dropAll (as : List DeviceApproval) : Regular P (dropAll P as) := by
  induction as with
  | nil => exact .pure _
  | cons a as ih => exact .bind (regular_dropApproval _ _ .expired) fun _ => ih

theorem regular_resumeExpired (cs : List Confirmation) : Regular P (resumeExpired P cs) := by
  induction cs with
  | nil => exact .pure _
  | cons c cs ih =>
    unfold resumeExpired
    split
    · exact ih
    · exact .bind (Regular.query rfl) fun _ => ih

theorem regular_maintenance (lastPurge : Option Time) : Regular P (maintenance P lastPurge) := by
  unfold maintenance closeAbandoned expireApprovals expireConfirmations
  repeat' with_reducible first
    | exact .pure _ | refine Regular.query ?_ | refine Regular.ask ?_ ?_ | exact regular_queueAll ..
    | exact regular_dropAll .. | exact regular_resumeExpired ..
    | refine .bind ?_ fun _ => ?_ | split
  all_goals first | rfl | trivial

/-- The jobs that leave `CallTool` alone altogether. -/
def Job.aside : Job → Bool
  | .callTool .. | .recordTurn .. => false
  | _ => true

theorem regular_body (h : j.aside = true) : Regular P (body P j) := by
  cases j
  case callTool => cases h
  case recordTurn => cases h
  case submitApproval => exact .bind (regular_submitApproval ..) fun _ => .pure _
  case runTask =>
    refine .bind (regular_runTask ..) fun n => ?_
    cases n <;> exact .pure _
  case maintenance =>
    refine .bind (regular_maintenance ..) fun n => ?_
    cases n <;> exact .pure _
  -- The other jobs record at most the end of a task.
  all_goals
    unfold body
    try unfold openSession buildCatalog
    try unfold Engine.ackToolOutput openConversation
    try unfold Engine.ack
    try unfold closeSession
    try unfold cancel onlyIf
    try unfold Engine.registerDevice
    try unfold Engine.claimNotifications claim
    try unfold Engine.taskWorker
    try unfold Engine.renewLease
    try unfold memoryWorker extractMemory finishMemory
    repeat' with_reducible first
      | exact .pure _ | refine Regular.query ?_ | refine Regular.ask ?_ ?_
      | exact regular_finished .. | exact regular_finish .. | refine .bind ?_ fun _ => ?_ | split
    all_goals first | rfl | trivial

variable {α : Type} {p : Op α}

theorem Regular.aside (h : Regular P p) : Aside p := h.mono fun _ hi => hi.1

theorem Regular.audits (h : Regular P p) : Audits P p := h.mono fun _ hi => hi.2

/-- **Whatever a job records is one of the events above.** -/
theorem audits_body (j : Job) : Audits P (body P j) := by
  by_cases hj : j.aside = true
  · exact (regular_body hj).audits
  have hquery (q : Query) : Audits P (query q) := .call trivial
  cases j
  case callTool =>
    unfold body callTool openConversation
    repeat' with_reducible first
      | exact .pure _ | exact hquery _ | exact (regular_voiceCall ..).audits
      | refine .bind ?_ fun _ => ?_ | split
  case recordTurn =>
    unfold body Engine.recordTurn openConversation
    repeat' with_reducible first
      | exact .pure _ | exact hquery _ | refine .bind ?_ fun _ => ?_ | split
  all_goals exact absurd rfl hj

end Jarvis.Orchestrator
