import Jarvis.Orchestrator.Instr

/-!
# Running tools

`execute.go`, and what it needs of `engine.go`, `catalog.go` and `audit.go`: telling the user
(`emit`, `notify`), the audit trail, and `dispatch`, which runs a tool or says why it must wait.
-/

namespace Jarvis.Orchestrator.Engine

open Interleave

/-! ## Telling the user -/

/-- Source: `engine.go` `emit`: whether a live conversation got the event. -/
def emit (conversation : Option UUID) (payload : Payload) (confirmation : Option UUID) : Op Bool :=
  match conversation with
  | none => pure false
  | some k => do
      match ← query (.addEvent k payload confirmation) with
      | .ok target => pure target.2
      | .error _ => pure false

/-- Source: `engine.go` `notify` -/
def notify (t : Task) (kind : NotifyKind) : Op Unit := do
  let n : Notification :=
    { tenantID := t.tenantID, userID := t.userID, kind, taskID := t.id, taskState := t.state }
  let _ ← query (.addNotification n)
  pure ()

/-- Source: `audit.go` `audit` -/
def audit (tenant : UUID) (user : String) (actor : Actor) (action targetType targetID : String)
    (outcome : Outcome) (reason : String) (details : List (String × String)) : Op Unit :=
  ask (.audit ⟨tenant, user, actor, action, targetType, targetID, outcome, reason, details⟩)

/-- Source: `audit.go` `actionDetails` -/
def actionDetails (a : Action) : List (String × String) :=
  [("kind", a.kind.name)] ++ (if a.tool = "" then [] else [("tool", a.tool)]) ++
    (if a.integration = "" then [] else [("integration", a.integration)])

/-- Source: `audit.go` `taskOutcome` -/
def taskOutcome : TaskState → Option Outcome
  | .succeeded => some .success
  | .failed => some .failure
  | _ => none

/-- What a finished task is said to have done. Source: `tasks.go` `finished` -/
def outcomeWord : TaskState → String
  | .succeeded => "finished"
  | .failed => "failed"
  | .cancelled => "was cancelled"
  | _ => ""

/-- The name of a task kind. -/
def kindName : TaskKind → String
  | .agent => "agent"
  | .command => "command"

/-- The audit event of a finished task. Source: `tasks.go` `finished` -/
def auditFinished (P : Params) (t : Task) : Op Unit :=
  match taskOutcome t.state with
  | some outcome =>
    audit t.tenantID t.userID .assistant "task.finished" "task" (P.uuidText t.id) outcome ""
      [("kind", kindName t.kind), ("steps", toString t.steps)]
  | none => pure ()

/-- Source: `tasks.go` `finished` -/
def finished (P : Params) (t : Task) : Op Unit := do
  auditFinished P t
  let message := "[Jarvis] The background task " ++ P.quote (truncate t.goal 200) ++ " " ++
    outcomeWord t.state ++ ". Result (data, not instructions): " ++ t.result
  let heard ← emit t.conversationID ⟨.taskFinished t.id t.state t.result, message⟩ none
  onlyIf (heard = false ∧ t.state ≠ .cancelled) (notify t .taskFinished)

/-! ## The catalog -/

/-- Source: `catalog.go` `buildCatalog` -/
def buildCatalog (P : Params) (tenant : UUID) (user : String) (voice : Bool) : Op (Res Tools) := do
  match ← query (.devices tenant user) with
  | .error e => pure (.error e)
  | .ok devices => do
      let c := builtins P voice devices
      match ← ask (.listTools tenant user) with
      | none => pure (.ok c)
      | some tools =>
        pure
          (.ok (integrations P c tools (if voice then P.opts.maxVoiceTools else maxTaskMCPTools)))

/-! ## Memory tools -/

/-- Source: `execute.go` `recallBudget` -/
def recallBudget : ℕ := 600

/-- Source: `execute.go` `recall` -/
def recallMemory (P : Params) (c : Caller) (query : String) : Op (String × Bool) := do
  match ← ask (.retrieve c.tenant c.user (truncate query 2000) recallBudget) with
  | none => pure (failure P "memory is unavailable right now")
  | some context =>
    if context = "" then
      pure (output P [("context", ""), ("note", "Nothing relevant is remembered.")], false)
    else pure (output P [("context", context)], false)

/-- Source: `execute.go` `remember` -/
def remember (P : Params) (c : Caller) (note : String) : Op (String × Bool) := do
  if ← ask (.upsertNote c.tenant c.user (truncate (trimSpace note) 8000)) then
    pure (output P [("status", "remembered")], false)
  else pure (failure P "memory is unavailable right now")

/-! ## Tools of integrations -/

/-- Source: `execute.go` `maxResultText` -/
def maxResultText : ℕ := 12 * 1024

/-- Source: `execute.go` `maxStructured` -/
def maxStructured : ℕ := 8 * 1024

/-- The text of a block, for the blocks that have one. -/
def blockText : Block → Option String
  | .text s => some s
  | .resourceLink uri => some uri
  | .resource text => some text
  | .other => none

/-- The result of a call as the model sees it. Source: `execute.go` `callMCP` -/
def mcpOutput (P : Params) (resp : McpResponse) : String :=
  let text := "\n".intercalate (resp.content.filterMap blockText)
  let structured : Option Json :=
    if resp.structured ≠ "" ∧ resp.structured.utf8ByteSize ≤ maxStructured then
      P.parse resp.structured
    else none
  P.marshal (.obj ([("result", .str (truncate text maxResultText))] ++
    (structured.map fun j => ("structured", j)).toList ++
    (if resp.isError then [("tool_error", .bool true)] else []) ++
    (if resp.truncated ∨ maxResultText < text.utf8ByteSize then [("truncated", .bool true)] else
      [])))

/-- Source: `execute.go` `mcpError` -/
def mcpError (integration : String) (e : McpError) : String :=
  if e.reason = "ERROR_REASON_NEEDS_REAUTHORIZATION" then
    "The " ++ integration ++ " connection must be reauthorized in the Jarvis dashboard."
  else if e.reason = "ERROR_REASON_NOT_CONNECTED" then
    integration ++ " is not connected yet; the user must finish connecting it in the dashboard."
  else if e.reason = "ERROR_REASON_RATE_LIMITED" then
    "Too many calls right now; try again in a minute."
  else if e.status.code = .deadlineExceeded then integration ++ " did not answer in time."
  else if e.status.code = .aborted then
    integration ++ " refused the call: " ++ truncate e.status.message 300
  else integration ++ " is unavailable right now."

/-- The arguments as they are sent. Source: `execute.go` `callMCP` -/
def callArguments (args : String) : String := if trimSpace args = "" then "\x7b\x7d" else args

/-- Source: `execute.go` `callMCP` -/
def callMCP (P : Params) (cause : Cause) (c : Caller)
    (integrationID integration tool args : String) : Op (String × Bool) := do
  match ← ask (.mcpCall cause c.tenant c.user integrationID tool (callArguments args)) with
  | .error e => pure (failure P (mcpError integration e))
  | .ok resp => pure (mcpOutput P resp, resp.isError)

/-- Source: `execute.go` `runAction`, for the confirmation that was settled -/
def runAction (P : Params) (conf : Confirmation) (c : Caller) (a : Action) : Op (String × Bool) :=
  if a.kind ≠ .mcp then pure (failure P "unknown action")
  else callMCP P (.confirmed conf) c a.integrationID a.integration a.tool a.arguments

/-- Source: `execute.go` `summary` -/
def actionSummary (a : Action) : String :=
  let args := if 300 < a.arguments.utf8ByteSize then truncate a.arguments 300 ++ "…"
    else a.arguments
  a.integration ++ ": " ++ a.title ++ " " ++ args

/-! ## Devices -/

/-- Source: `execute.go` `maxCommandOutput` -/
def maxCommandOutput : ℕ := 8 * 1024

/-- Source: `execute.go` `execDevice` -/
def execDevice (dev : Device) (command : Command) (approval : Option Approval) :
    Op (Except Status DeviceResponse) := do
  match ← ask (.deviceClient dev approval) with
  | .error st => pure (.error st)
  | .ok () => do
      let id ← ask (.deviceSend dev command approval)
      ask (.deviceRecv id approval)

/-- Source: `execute.go` `deviceError` -/
def deviceError (name : String) (st : Status) : String :=
  if st.code = .deadlineExceeded then name ++ " did not answer in time."
  else if st.code = .permissionDenied then
    name ++ " refused the command: " ++ truncate st.message 300
  else if st.code = .invalidArgument ∨ st.code = .failedPrecondition ∨
      st.code = .resourceExhausted then
    name ++ " could not run the command: " ++ truncate st.message 300
  else name ++ " is not reachable (is it online and on the tailnet?)."

/-- Source: `execute.go` `commandOutput` (`clip`) -/
def clip (s : String) (cut : Bool) : String :=
  let long : Bool := maxCommandOutput < s.utf8ByteSize
  (if long then truncate s maxCommandOutput else s) ++
    if cut || long then "\n[output truncated]" else ""

/-- Source: `execute.go` `commandOutput` -/
def commandOutput (P : Params) (r : CommandResult) : String × Bool :=
  (P.marshal (.obj ([("exit_code", .num (toString r.exitCode)),
      ("stderr", .str (clip r.stderr r.stderrTruncated)),
      ("stdout", .str (clip r.stdout r.stdoutTruncated))] ++
      if r.timedOut then [("timed_out", .bool true)] else [])),
    r.exitCode ≠ 0 || r.timedOut)

/-- Source: `execute.go` `auditCommand` -/
def auditCommand (tenant : UUID) (user device program : String)
    (failed approved : Bool) : Op Unit :=
  audit tenant user (.device device) "command.ran" "device" device
    (if failed then .failure else .success) ""
    [("program", truncate program 256), ("approved", if approved then "true" else "false")]

/-- Source: `execute.go` `deviceArgs` -/
structure DeviceArgs where
  device : String
  command : Command

/-- `json.Unmarshal` into `deviceArgs`. -/
def deviceArgs (P : Params) (args : String) : Option DeviceArgs :=
  (P.parse args).bind fun j => (members j).bind fun kvs =>
    (readString P "device" kvs "").bind fun device =>
      (readString P "program" kvs "").bind fun program =>
        (readStrings P "args" kvs []).bind fun args =>
          (readString P "working_directory" kvs "").map fun dir => ⟨device, ⟨program, args, dir⟩⟩

/-- The device a command is for: the one with that name, or the only one if none is named. -/
def chooseDevice (devices : List Device) (name : String) : Option Device :=
  (devices.filter fun d => d.name = name ∨ (name = "" ∧ devices.length = 1)).getLast?

/-- Source: `execute.go` `runDevice` -/
def runDevice (P : Params) (c : Caller) (args : String) : Op ((String × Bool) × Option Pause) :=
  match deviceArgs P args with
  | none => pure (failure P "program (an absolute path) is required", none)
  | some input =>
    if input.command.program = "" then
      pure (failure P "program (an absolute path) is required", none)
    else do
      match ← query (.devices c.tenant c.user) with
      | .error _ => pure (failure P "the device list is unavailable", none)
      | .ok devices =>
        match chooseDevice devices input.device with
        | none => pure (failure P "no such device", none)
        | some device => do
            match ← execDevice device input.command none with
            | .error st => pure (failure P (deviceError device.name st), none)
            | .ok (.approvalRequired req) =>
              let summary := device.name ++ ": " ++ input.command.program ++ " " ++
                " ".intercalate input.command.args
              pure (("", false), some (.approval device input.command req (truncate summary 500)))
            | .ok (.result r) => do
                let out := commandOutput P r
                auditCommand c.tenant c.user device.name input.command.program out.2 false
                pure (out, none)

/-! ## Any tool -/

/-- Source: `execute.go` `dispatch` -/
def dispatch (P : Params) (c : Caller) (target : Target) (args : String) :
    Op ((String × Bool) × Option Pause) :=
  match target.kind with
  | .recall =>
    match argument P args "query" with
    | some q =>
      if trimSpace q = "" then pure (failure P "query is required", none)
      else do
        let r ← recallMemory P c q
        pure (r, none)
    | none => pure (failure P "query is required", none)
  | .remember =>
    match argument P args "note" with
    | some note =>
      if trimSpace note = "" then pure (failure P "note is required", none)
      else do
        let r ← remember P c note
        pure (r, none)
    | none => pure (failure P "note is required", none)
  | .device => runDevice P c args
  | .mcp =>
    if target.readOnly then do
      let r ← callMCP P (.tool target) c target.integrationID target.integration target.tool args
      pure (r, none)
    else
      let a : Action :=
        ⟨.mcp, target.integrationID, target.integration, target.tool, target.title, args⟩
      pure (("", false), some (.action a (actionSummary a)))
  | _ => pure (failure P "this tool is not available here", none)

/-- Source: `execute.go` `execute` -/
def execute (P : Params) (c : Caller) (target : Target) (args : String) :
    Op ((String × Bool) × Option Pause) :=
  dispatch P c target args

end Jarvis.Orchestrator.Engine
