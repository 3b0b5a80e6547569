import Jarvis.Interleave.Machine
import Jarvis.Orchestrator.Tasks

/-!
# The orchestrator as a whole

`Job` are the requests the service answers and the loops its processes run, `body` the program of
each, and `machine` the orchestrator: any number of processes over one database, each answering any
requests, with its workers, any statement failing at any time, and any process stopping between any
two statements.
-/

namespace Jarvis.Orchestrator

open Interleave

/-- What a process does. -/
inductive Job where
  /-- `OpenConversation` -/
  | openConversation (tenant : UUID) (user sessionID : String) (provider : Provider)
      (locale : String)
  /-- `RecordTurn` -/
  | recordTurn (id : UUID) (role itemID : String) (turn : ℤ) (text : String)
  /-- `CallTool` -/
  | callTool (id : UUID) (callID name args : String) (turn : ℤ)
  /-- `AckToolOutput` -/
  | ackToolOutput (id : UUID) (callID : String) (turn : ℤ)
  /-- `AckEvent` -/
  | ackEvent (id : UUID) (eventID : ℕ) (turn : ℤ)
  /-- `CloseConversation` -/
  | closeConversation (id : UUID)
  /-- `CancelTask` -/
  | cancelTask (tenant : UUID) (user : String) (id : UUID)
  /-- `RegisterDevice` -/
  | registerDevice (tenant : UUID) (user name address serverName : String)
    (creds : DeviceCredentials)
  /-- `RemoveDevice` -/
  | removeDevice (tenant : UUID) (user : String) (id : UUID)
  /-- `SubmitDeviceApproval` -/
  | submitApproval (tenant : UUID) (user approvalID approverID signature : String)
  /-- `ClaimNotifications`, until a time -/
  | claimNotifications (consumer : String) (limit : ℕ) (deadline : Time)
  /-- `CompleteNotifications` -/
  | completeNotifications (ids : List ℕ)
  /-- A worker looking for a task. -/
  | taskWorker (owner : Owner)
  /-- A worker running a task. -/
  | runTask (owner : Owner) (t : Task) (items : List Item) (calls : List ToolCall) (transient : ℕ)
  /-- The loop that keeps a worker's lease. -/
  | renewLease (id : UUID) (owner : Owner)
  /-- `maintenance` -/
  | maintenance (lastPurge : Option Time)
  /-- `memoryWorker` -/
  | memoryWorker

namespace Engine

/-- What is stored of a device. -/
def newDevice (id tenant : UUID) (user name address serverName : String)
    (creds : DeviceCredentials) : Device where
  id
  tenantID := tenant
  userID := user
  name
  address
  serverName
  caPEM := creds.caPEM
  clientCertPEM := creds.clientCertPEM
  clientKeySealed := ⟨tenant, id, creds.clientKeyPEM⟩

/-- Source: `server.go` `RegisterDevice`, after its checks of the other fields -/
def registerDevice (P : Params) (tenant : UUID) (user name address serverName : String)
    (creds : DeviceCredentials) : Op (Res Device) :=
  if P.keyPair creds.clientCertPEM creds.clientKeyPEM then do
    let new ← ask .newUUID
    match ← query (.devices tenant user) with
    | .error e => pure (.error e)
    | .ok devices => do
        let id := ((devices.filter (·.name = name)).getLast?.map Device.id).getD new
        match ← ask (.seal tenant id) with
        | .error _ => pure (.error .failed)
        | .ok () => query (.upsertDevice (newDevice id tenant user name address serverName creds))
  else pure (.error .failed)

/-- Source: `engine.go` `notificationLease`, `notificationAttempts`, `notificationMaxAge` -/
def claim (consumer : String) (limit : ℕ) : Op (Res (List Notification)) :=
  query (.claimNotifications consumer limit minute 5 hour)

/-- A round of `ClaimNotifications`: whether it goes on. Source: `engine.go` `ClaimNotifications` -/
def claimNotifications (consumer : String) (limit : ℕ) (deadline : Time) : Op Bool := do
  match ← claim consumer limit with
  | .ok [] => do
      let now ← ask .now
      if deadline ≤ now then pure false
      else do
        let done ← ask .ctxErr
        pure !done
  | _ => pure false

end Engine

open Engine

/-- The jobs a process goes on with. -/
def goOn (b : Bool) (j : Job) : List Job := if b then [j] else []

/-- The program of a job. -/
def body (P : Params) : Job → Op (List Job)
  | .openConversation tenant user sessionID provider locale => do
      let _ ← openSession P tenant user sessionID provider locale
      pure []
  | .recordTurn id role itemID turn text => do
      let _ ← Engine.recordTurn id role itemID turn text
      pure []
  | .callTool id callID name args turn => do
      -- The server takes blank arguments for an empty object.
      let _ ← callTool P id callID name (callArguments args) turn
      pure []
  | .ackToolOutput id callID turn => do
      let _ ← ackToolOutput id callID turn
      pure []
  | .ackEvent id eventID turn => do
      let _ ← Engine.ack id eventID turn
      pure []
  | .closeConversation id => do
      let _ ← closeSession id
      pure []
  | .cancelTask tenant user id => do
      let _ ← cancel P tenant user id
      pure []
  | .registerDevice tenant user name address serverName creds => do
      let _ ← registerDevice P tenant user name address serverName creds
      pure []
  | .removeDevice tenant user id => do
      let _ ← query (.deleteDevice tenant user id)
      pure []
  | .submitApproval tenant user approvalID approverID signature => do
      let _ ← submitApproval P tenant user approvalID approverID signature
      pure []
  | .claimNotifications consumer limit deadline => do
      let b ← claimNotifications consumer limit deadline
      pure (goOn b (.claimNotifications consumer limit deadline))
  | .completeNotifications ids => do
      let _ ← query (.completeNotifications ids)
      pure []
  | .taskWorker owner => do
      match ← taskWorker P owner with
      | .stop => pure []
      | .idle => pure [.taskWorker owner]
      | .run t items calls => pure [.runTask owner t items calls 0, .renewLease t.id owner]
  | .runTask owner t items calls transient => do
      match ← runTask P owner t items calls transient with
      | .stop => pure [.taskWorker owner]
      | .again t items calls transient => pure [.runTask owner t items calls transient]
  | .renewLease id owner => do
      let b ← renewLease id owner
      pure (goOn b (.renewLease id owner))
  | .maintenance lastPurge => do
      match ← maintenance P lastPurge with
      | none => pure []
      | some lastPurge => pure [.maintenance lastPurge]
  | .memoryWorker => do
      let b ← memoryWorker
      pure (goOn b .memoryWorker)

/-- The jobs that arrive as requests. -/
def isRequest : Job → Bool
  | .taskWorker _ | .runTask .. | .renewLease .. | .maintenance _ | .memoryWorker => false
  | _ => true

/-- The loops a process starts. Source: `tasks.go` `Run` -/
def daemons (P : Params) (proc : ℕ) : List Job :=
  (List.range P.opts.workers).map (fun i => .taskWorker ⟨proc, i⟩) ++
    [.memoryWorker, .maintenance none]

/-- The orchestrator. -/
def machine (P : Params) : Machine Instr Answer Shared Oracle Job World where
  answer i o s := answer s i o
  env v s := v.step s
  body := body P
  isRequest := isRequest
  daemons := daemons P

/-- A configuration of the orchestrator. -/
abbrev Cfg := Config Instr Answer Shared Job

/-- A request that was answered. -/
abbrev Ev := Event Instr Answer Shared Job

/-- What can happen. -/
abbrev Lbl := Label Oracle Job World

/-- The orchestrator before anything has started, with an empty database. -/
def start : Cfg := .init {}

/-- The configurations some run reaches whose steps all meet `ok`. -/
abbrev Reaches (P : Params) (ok : Cfg → Lbl → Prop) (c : Cfg) : Prop :=
  Reach (machine P) ok start c

/-- The configurations some run reaches. -/
abbrev Reachable (P : Params) (c : Cfg) : Prop := Reaches P (fun _ _ => True) c

/-! ## Conditions on steps -/

/-- A condition on the requests that are answered and on the processes that stop. -/
def guarded (exec : Cfg → Instr → Oracle → Bool) (stop : Cfg → ℕ → Prop) (c : Cfg) :
    Lbl → Prop
  | .exec tid o => ∀ i, c.next tid = some i → exec c i o = true
  | .stop p => stop c p
  | _ => True

variable {P : Params} {stop : Cfg → ℕ → Prop} {ls : List Lbl} {p : Cfg → Bool}

theorem guarded.exec {exec : Cfg → Instr → Oracle → Bool} {k : Answer i → Op (List Job)}
    (h : guarded exec stop c (.exec tid o)) (hf : Fires (machine P) c tid o th i k r s) :
    exec c i o = true :=
  h i hf.next

/-! ## Runs by evaluation -/

/-- The condition on requests, checked along a run in which no process stops. -/
def checked (exec : Cfg → Instr → Oracle → Bool) (c : Cfg) : Lbl → Bool
  | .exec tid o => (c.next tid).all fun i => exec c i o
  | .stop _ => false
  | _ => true

theorem guarded_of_checked {exec : Cfg → Instr → Oracle → Bool} (h : checked exec c l = true) :
    guarded exec stop c l := by
  cases l with
  | exec tid o =>
    intro i hi
    simpa only [checked, hi, Option.all_some] using h
  | stop p => cases h
  | _ => trivial

/-- What an executable run ends in is reached. -/
theorem reaches_of_run {exec : Cfg → Instr → Oracle → Bool}
    (h : ((machine P).run (checked exec) start ls).any p = true) :
    ∃ c, Reaches P (guarded exec stop) c ∧ p c = true := by
  obtain ⟨c, hc, hp⟩ := (Option.any_eq_true ..).mp h
  exact ⟨c, (Reach.of_run .init hc).weaken fun _ _ => guarded_of_checked, hp⟩

/-- Every step is allowed. -/
def anything (_ : Cfg) (_ : Lbl) : Bool := true

/-- What an executable run ends in is reachable. -/
theorem reachable_of_run (h : ((machine P).run anything start ls).any p = true) :
    ∃ c, Reachable P c ∧ p c = true := by
  obtain ⟨c, hc, hp⟩ := (Option.any_eq_true ..).mp h
  exact ⟨c, (Reach.of_run .init hc).weaken fun _ _ _ => trivial, hp⟩

/-- The text of an id. -/
def idText (n : UUID) : String :=
  .ofList ("00000000-0000-0000-0000-".toList ++
    (List.range 12).map fun i => (n / 16 ^ (11 - i) % 16).digitChar)

/-- The object of a text with one member, which is a string without escapes. -/
def oneMember (s : String) : Option Json :=
  match s.toList.splitOn '"' with
  | [['\x7b'], key, [':'], value, ['\x7d']] => some (.obj [(.ofList key, .str (.ofList value))])
  | _ => none

/-- A small deployment, for runs that are checked by evaluation: their ids are small, and their
arguments and schemas are objects with one member. What is written for people is left out. -/
def sample : Params where
  opts := ⟨1, 3, hour, hour, hour, 10⟩
  parse := oneMember
  marshal _ := ""
  jsonbText _ := ""
  uuidText := idText
  parseUUID s := (List.range 16).find? (idText · = s)
  fold s := s
  lower c := c
  quote s := s
  day _ := ""
  keyPair certificate key := certificate = key

/-- The next `n` requests of a thread are statements, and go through. -/
def commits (tid n : ℕ) : List Lbl :=
  List.replicate n (.exec tid (.commit []))

/-- A tool that is not read-only. -/
def mailTool : McpTool := ⟨"1", "mail", "send", "", "", "\x7b\"type\":\"object\"\x7d", false⟩

/-- A process starts, and its threads 0, 1 and 2 with it; a user opens conversation 5 (thread 3),
with that tool. -/
def opening : List Lbl :=
  [.boot, .request 0 (.openConversation 1 "ann" "s" .openAI "")] ++ commits 3 1 ++
  [.exec 3 (.tools (some [mailTool])), .exec 3 (.uuid 5)] ++ commits 3 2

/-- The assistant starts task 9 for the user in turn 1 (thread 4). -/
def starting : List Lbl :=
  [.request 0 (.callTool 5 "c1" "start_task" "\x7b\"goal\":\"plan\"\x7d" 1)] ++ commits 4 4 ++
  [.exec 4 (.tools (some [mailTool])), .exec 4 (.time 0), .exec 4 (.context none)] ++ commits 4 1 ++
  [.exec 4 (.uuid 9), .exec 4 (.time 0)] ++ commits 4 1 ++ [.exec 4 .through] ++ commits 4 1

/-- The worker leases the task (thread 0), the model asks for a call of the tool (thread 5), and the
worker comes to that call (thread 7). -/
def working : List Lbl :=
  [.exec 0 (.flag false)] ++ commits 0 1 ++
  [.exec 5 (.flag false), .exec 5 (.time 0), .exec 5 (.key .key),
    .exec 5 (.decision (.ok ⟨"", [⟨"m1", "mail__send", "\x7b\"to\":\"bob\"\x7d"⟩],
      ⟨"step"⟩⟩))] ++ commits 5 1 ++
  [.exec 7 (.flag false), .exec 7 (.time 0)]

/-- It puts the task to `awaiting_confirmation` and asks the user, as confirmation 11. -/
def pausing : List Lbl :=
  commits 7 1 ++ [.exec 7 (.uuid 11), .exec 7 (.time 0)] ++ commits 7 1 ++ [.exec 7 .through] ++
  commits 7 1

end Jarvis.Orchestrator
