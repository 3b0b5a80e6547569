import Jarvis.Orchestrator.Voice

/-!
# Background tasks and maintenance

`tasks.go` and `memory.go`: the workers that run agent tasks, the maintenance loop that expires
what nobody answered, and the worker that turns closed conversations into memory. A function that
loops is given by one round of its loop, which says how to go on.
-/

namespace Jarvis.Orchestrator.Engine

open Interleave

/-- Source: `tasks.go` `taskLease` -/
def taskLease : Time := 60 * second

/-- Source: `tasks.go` `maxTransientErrors` -/
def maxTransientErrors : ℕ := 3

/-- Source: `tasks.go` `maxResultForUser` -/
def maxResultForUser : ℕ := 2000

/-! ## Writing a task -/

/-- A task with its history and pending calls as they are stored. -/
def withState (t : Task) (items : List Item) (calls : List ToolCall) : Task :=
  { t with history := encodeItems items, pending := encodeCalls calls }

/-- Source: `tasks.go` `save` -/
def save (owner : Owner) (t : Task) (items : List Item) (calls : List ToolCall) : Op Unit := do
  let _ ← query (.saveProgress (withState t items calls) owner)
  pure ()

/-- Source: `tasks.go` `finish` -/
def finish (P : Params) (owner : Owner) (t : Task) (items : List Item) (calls : List ToolCall)
    (state : TaskState) (result : String) : Op Unit := do
  let result := truncate (trimSpace result) maxResultForUser
  let t := { withState t items calls with state, result }
  match ← query (.setTaskState t owner state result) with
  | .ok true => finished P t
  | _ => pure ()

/-- Source: `tasks.go` `expireWithoutConversation` -/
def expireWithoutConversation (P : Params) (t : Task) (callID : String) : Op Unit := do
  let _ ← query (.resumeTask t.id (.complete callID (output P [("error",
    "The user could not be asked to confirm this action; it was not done.")])))
  pure ()

/-- Source: `tasks.go` `pauseTask`; `call` is the first of the pending `calls` -/
def pauseTask (P : Params) (owner : Owner) (t : Task) (items : List Item) (call : ToolCall)
    (calls : List ToolCall) : Pause → Op Unit
  | .action a summary => do
      let t := withState t items (call :: calls)
      match ← query (.setTaskState t owner .awaitingConfirmation "") with
      | .ok true => do
          let id ← ask .newUUID
          let now ← ask .now
          match t.conversationID with
          | none => expireWithoutConversation P t call.callID
          | some k => do
              let confirmation : Confirmation :=
                { id, conversationID := k, taskID := some t.id, callID := call.callID,
                  action := encodeAction P a, summary, askedTurn := none, state := .pending,
                  expiresAt := now + P.opts.confirmationTTL }
              match ← query (.createConfirmation confirmation) with
              | .error _ => pure ()
              | .ok () => do
                  audit t.tenantID t.userID .assistant "action.confirmation_requested"
                    "confirmation"
                    (P.uuidText id) .success "" (actionDetails a)
                  let message := "[Jarvis] The background task " ++ P.quote (truncate t.goal 200) ++
                    " wants to do this: " ++ summary ++
                      ". Ask the user whether to go ahead, then " ++
                    "call confirm_action or cancel_action with confirmation_id " ++ P.uuidText id ++
                    "."
                  let heard ← emit (some k) ⟨.confirmationRequested id t.id summary, message⟩
                    (some id)
                  onlyIf (heard = false)
                    (notify { t with state := .awaitingConfirmation } .confirmationNeeded)
      | _ => pure ()
  | .approval device command req summary => do
      let t := withState t items (call :: calls)
      match ← query (.setTaskState t owner .awaitingApproval "") with
      | .ok true => do
          match ← saveApproval t.id call.callID device command req with
          | .error _ => pure ()
          | .ok () => do
              let _ ← emit t.conversationID
                ⟨.deviceApprovalRequested req.approvalID device.name summary,
                "[Jarvis] A command waits for the user's approval on their phone: " ++ summary ++
                "."⟩ none
              notify { t with state := .awaitingApproval } .approvalNeeded
              audit t.tenantID t.userID .assistant "command.approval_requested" "task"
                (P.uuidText t.id) .success ""
                  [("device", device.name), ("program", command.program)]
      | _ => pure ()

/-- Source: `tasks.go` `Cancel` -/
def cancel (P : Params) (tenant : UUID) (user : String) (id : UUID) : Op (Res Task) := do
  match ← query (.task tenant user id) with
  | .error e => pure (.error e)
  | .ok before => do
      match ← query (.cancelTask tenant user id) with
      | .error e => pure (.error e)
      | .ok t => do
          onlyIf (before.state.terminal = false ∧ t.state = .cancelled) (finished P t)
          pure (.ok t)

/-! ## Running a task -/

/-- How a model step fails. Source: `tasks.go` `permanentError` -/
inductive DecideErr where
  | permanent (message : String)
  | transient

/-- Source: `tasks.go` `providerName` -/
def providerName : Provider → String
  | .xAI => "xAI"
  | _ => "OpenAI"

/-- Source: `tasks.go` `decide` -/
def decide (t : Task) (items : List Item) : Op (Except DecideErr DecideResponse) := do
  match ← ask (.providerKey t.tenantID t.provider) with
  | .noKey => pure (.error (.permanent ("There is no " ++ providerName t.provider ++
      " key in the Jarvis vault for this account.")))
  | .unavailable => pure (.error .transient)
  | .key => do
      match ← ask (.decide t.id t.provider items t.tools) with
      | .ok resp => pure (.ok resp)
      | .error .unauthenticated => pure (.error (.permanent ("The " ++ providerName t.provider ++
          " key was rejected; update it in the dashboard.")))
      | .error .invalidArgument | .error .failedPrecondition =>
        pure (.error (.permanent "The AI provider refused the request."))
      | .error _ => pure (.error .transient)

/-- How `runTask` goes on after a round of its loop. -/
inductive Next where
  | stop
  | again (t : Task) (items : List Item) (calls : List ToolCall) (transient : ℕ)

/-- Who a task's call runs for. Source: `tasks.go` `runTask` -/
def taskCaller (t : Task) (callID : String) : Caller :=
  { tenant := t.tenantID, user := t.userID, conversation := t.conversationID,
    provider := t.provider, task := some t.id, callID }

/-- A task runs a tool. Source: `tasks.go` `runTask` -/
def runTool (P : Params) (t : Task) (call : ToolCall) : Op ((String × Bool) × Option Pause) :=
  match t.tools.lookup call.name with
  | some target => execute P (taskCaller t call.callID) target call.argumentsJSON
  | none => pure (failure P ("unknown tool " ++ truncate call.name 64), none)

/-- A round of `runTask` that runs the first pending call. Source: `tasks.go` `runTask` -/
def runCall (P : Params) (owner : Owner) (t : Task) (items : List Item) (call : ToolCall)
    (calls : List ToolCall) (transient : ℕ) : Op Next := do
  match ← runTool P t call with
  | (_, some p) => do
      pauseTask P owner t items call calls p
      pure .stop
  | (r, none) => do
      let items := items ++ [toolResult call.callID r.1]
      save owner t items calls
      pure (.again (withState t items calls) items calls transient)

/-- A round of `runTask` that asks the model for the next step. Source: `tasks.go` `runTask` -/
def runDecide (P : Params) (owner : Owner) (t : Task) (items : List Item) (transient : ℕ) :
    Op Next := do
  match ← decide t items with
  | .error e => do
      if ← ask .ctxErr then pure .stop
      else match e with
        | .permanent message => do
            finish P owner t items [] .failed message
            pure .stop
        | .transient =>
          if maxTransientErrors ≤ transient + 1 then do
            finish P owner t items [] .failed
              "The AI provider is unavailable right now; try again later."
            pure .stop
          else do
            if ← ask .ctxErr then pure .stop
            else pure (.again t items [] (transient + 1))
  | .ok resp => do
      let t := { t with steps := t.steps + 1 }
      let items := items ++ [.modelStep resp.step]
      if resp.toolCalls = [] then do
        finish P owner t items [] .succeeded resp.text
        pure .stop
      else do
        save owner t items resp.toolCalls
        pure (.again (withState t items resp.toolCalls) items resp.toolCalls 0)

/-- A round of `runTask`. Source: `tasks.go` `runTask` -/
def runTask (P : Params) (owner : Owner) (t : Task) (items : List Item) (calls : List ToolCall)
    (transient : ℕ) : Op Next := do
  if ← ask .ctxErr then pure .stop
  else do
    let now ← ask .now
    if t.deadline < now then do
      finish P owner t items calls .failed "The task took too long and was stopped."
      pure .stop
    else match calls with
      | call :: calls => runCall P owner t items call calls transient
      | [] =>
        if P.opts.taskMaxSteps ≤ t.steps then do
          finish P owner t items [] .failed "The task needed too many steps and was stopped."
          pure .stop
        else runDecide P owner t items transient

/-- How a worker goes on. -/
inductive Work where
  | stop
  | idle
  | run (t : Task) (items : List Item) (calls : List ToolCall)

/-- A round of `taskWorker`, up to the loop of `runTask`.
Source: `tasks.go` `taskWorker`, `runTask` -/
def taskWorker (P : Params) (owner : Owner) : Op Work := do
  if ← ask .ctxErr then pure .stop
  else do
    match ← query (.leaseTask owner taskLease) with
    | .error _ => pure .idle
    | .ok t =>
      match decodeState t with
      | none => do
          finish P owner t [] [] .failed "The task's saved state is unreadable."
          pure .idle
      | some (items, calls) => pure (.run t items calls)

/-- A round of the loop that keeps a lease: whether it goes on. Source: `tasks.go` `runTask` -/
def renewLease (id : UUID) (owner : Owner) : Op Bool := do
  if ← ask .ctxErr then pure false
  else do
    match ← query (.renewLease id owner taskLease) with
    | .ok false => pure false
    | _ => pure true

/-! ## Maintenance -/

/-- Source: `memory.go` `closeAbandoned` (the loop) -/
def queueAll : List UUID → Op Unit
  | [] => pure ()
  | id :: ids => do
      let _ ← query (.queueMemoryJob id)
      queueAll ids

/-- Source: `memory.go` `closeAbandoned` -/
def closeAbandoned : Op Unit := do
  match ← query .closeAbandoned with
  | .error _ => pure ()
  | .ok ids => queueAll ids

/-- Source: `memory.go` `expireApprovals` (the loop) -/
def dropAll (P : Params) : List DeviceApproval → Op Unit
  | [] => pure ()
  | a :: as => do
      dropApproval P a "Nobody approved the command in time, so it did not run." "approval_expired"
      dropAll P as

/-- Source: `memory.go` `expireApprovals` -/
def expireApprovals (P : Params) : Op Unit := do
  match ← query .expireApprovals with
  | .error _ => pure ()
  | .ok expired => dropAll P expired

/-- Source: `memory.go` `maintenance` (the loop over expired confirmations) -/
def resumeExpired (P : Params) : List Confirmation → Op Unit
  | [] => pure ()
  | c :: cs =>
    match c.taskID with
    | none => resumeExpired P cs
    | some t => do
        let _ ← query (.resumeTask t (.complete c.callID (output P [("error",
          "The user did not confirm in time; the action was not done.")])))
        resumeExpired P cs

/-- Source: `memory.go` `maintenance` (confirmations) -/
def expireConfirmations (P : Params) : Op Unit := do
  match ← query .expireConfirmations with
  | .error _ => pure ()
  | .ok expired => resumeExpired P expired

/-- A round of `maintenance`: `none` when it ends, or the time of the last purge.
Source: `memory.go` `maintenance` -/
def maintenance (P : Params) (lastPurge : Option Time) : Op (Option (Option Time)) := do
  if ← ask .ctxErr then pure none
  else do
    closeAbandoned
    expireApprovals P
    expireConfirmations P
    let now ← ask .now
    if lastPurge.all fun last => last + hour < now then do
      let _ ← query (.purgeNotifications (24 * hour))
      let _ ← query (.purgeTranscripts P.opts.transcriptRetention)
      let now ← ask .now
      pure (some (some now))
    else pure (some lastPurge)

/-! ## Memory -/

/-- Source: `memory.go` `memoryLease` -/
def memoryLease : Time := 5 * minute

/-- Source: `memory.go` `maxMemoryAttempts` -/
def maxMemoryAttempts : ℕ := 5

/-- How an extraction ends. -/
inductive MemoryResult where
  | done
  | permanent
  | retry
  deriving DecidableEq

/-- Source: `memory.go` `extractMemory` -/
def extractMemory (id : UUID) : Op MemoryResult := do
  match ← query (.conversation id) with
  | .error _ => pure .retry
  | .ok conv => do
      match ← query (.transcript id) with
      | .error _ => pure .retry
      | .ok turns =>
        if turns.all fun t => t.role ≠ "user" then pure .done
        else do
          match ← ask (.providerKey conv.tenantID conv.provider) with
          | .noKey => pure .permanent
          | .unavailable => pure .retry
          | .key => do
              match ← ask (.extractKnowledge conv turns) with
              | .error .unauthenticated | .error .invalidArgument => pure .permanent
              | .error _ => pure .retry
              | .ok e =>
                if e.empty then pure .done
                else do
                  match ← ask (.upsertExtraction conv e) with
                  | .ok () => pure .done
                  | .error .invalidArgument => pure .permanent
                  | .error _ => pure .retry

/-- How a memory job goes on. Source: `memory.go` `memoryWorker` -/
def finishMemory (id : UUID) (attempts : ℕ) : MemoryResult → Op (Res Unit)
  | .done => query (.finishMemoryJob id .done 0)
  | .permanent => query (.finishMemoryJob id .failed 0)
  | .retry =>
    if maxMemoryAttempts ≤ attempts then query (.finishMemoryJob id .failed 0)
    else query (.finishMemoryJob id .queued (2 ^ attempts * minute))

/-- A round of `memoryWorker`: whether it goes on. Source: `memory.go` `memoryWorker` -/
def memoryWorker : Op Bool := do
  if ← ask .ctxErr then pure false
  else do
    match ← query (.leaseMemoryJob memoryLease) with
    | .error _ => pure true
    | .ok (id, attempts) => do
        let r ← extractMemory id
        let _ ← finishMemory id attempts r
        pure true

end Jarvis.Orchestrator.Engine
