import Mathlib.Data.List.AList
import Mathlib.Data.String.Basic

/-!
# The voice gateway: one session and its tools

The loop that handles what the provider and the orchestrator send, and the goroutines it starts:
those that report questions, chained by their barriers, and those that run function calls. Source:
`services/voice-gateway/internal/session/jarvis.go`. Every step is one input of the loop or one step
of a goroutine, in any order. Writes to the provider may fail, and Go visits the batches in any
order; both are given by the environment (`Oracle`).

The texts of questions and events, and the names and arguments of function calls, are only passed on
and are left out.
-/

namespace Jarvis.Gateway

/-- A question whose turn is reported: the output of a call, or an event. -/
inductive Question where
  | tool (callID : String)
  | event (eventID : ℤ)
  deriving DecidableEq, Repr

/-- Source: `delivered` -/
structure Delivered where
  want : Bool := false
  acks : List Question := []
  deriving DecidableEq, Repr

/-- Source: `add` -/
def Delivered.add (d other : Delivered) : Delivered := ⟨d.want || other.want, d.acks ++ other.acks⟩

/-- Source: `toolResult` -/
structure ToolResult where
  responseID : String
  callID : String
  output : String
  ackRequired : Bool
  deriving DecidableEq, Repr

/-- Source: `callBatch` -/
structure CallBatch where
  outstanding : ℤ := 0
  done : Bool := false
  results : List ToolResult := []
  deriving DecidableEq, Repr

/-- Source: `realtime.FunctionCall` -/
structure FunctionCall where
  callID : String
  responseID : String
  deriving DecidableEq, Repr

/-- A goroutine of `startAcks`. -/
structure AckRoutine where
  previous : Option ℕ
  turn : ℕ
  /-- The questions that are still to be reported, and how often the first of them was tried. -/
  pending : List Question
  attempt : ℕ
  /-- `done` is closed. -/
  closed : Bool
  deriving DecidableEq, Repr

inductive CallStatus where
  /-- It waits for its barrier. -/
  | waiting
  /-- `CallTool` was sent. -/
  | issued
  /-- Its result waits to be taken by the loop. -/
  | returned (result : ToolResult)
  | gone
  deriving DecidableEq, Repr

/-- A goroutine of `runCall`. -/
structure CallRoutine where
  barrier : Option ℕ
  callID : String
  responseID : String
  turn : ℕ
  status : CallStatus
  deriving DecidableEq, Repr

/-- Source: `RecordTurnRequest` -/
structure Turn where
  /-- `ROLE_USER` or `ROLE_ASSISTANT` -/
  user : Bool
  userTurn : ℕ
  itemID : String
  text : String
  deriving DecidableEq, Repr

inductive Event where
  | speechStarted
  | speechStopped
  | created (responseID : String)
  | done (responseID : String)
  /-- A question was put into the conversation. -/
  | added (question : Question)
  /-- `response.create` was sent. -/
  | requested
  /-- The provider reported an error. -/
  | failed
  /-- The goroutine that reports these questions was started. -/
  | started (routine : ℕ) (acks : List Question) (turn : ℕ)
  /-- A question was reported: `AckToolOutput` or `AckEvent` was sent. -/
  | reported (routine : ℕ) (question : Question) (turn : ℕ)
  /-- The report of a question has completed, or was given up. -/
  | settled (routine : ℕ) (question : Question)
  /-- A function call was announced that was not running. -/
  | announced (callID responseID : String)
  /-- Too many calls were running. -/
  | refused (callID responseID : String)
  | dispatched (call : ℕ) (responseID : String) (turn : ℕ)
  /-- `CallTool` was sent. -/
  | called (call : ℕ) (responseID : String) (turn : ℕ)
  /-- The loop took the result of a call. -/
  | taken (result : ToolResult)
  /-- The output of a call was sent to the provider. -/
  | output (callID output : String)
  deriving DecidableEq, Repr

/-- What the environment decides in a step: which writes succeed (those not listed do), and in which
order the batches are visited, each time. -/
structure Oracle where
  writes : List Bool := []
  orders : List (List String) := []
  deriving DecidableEq, Repr

/-- Source: `jarvis`, the goroutines, and what has happened, the last first. -/
structure Session where
  userTurn : ℕ := 0
  speaking : Bool := false
  itemTurns : AList (fun _ : String => ℕ) := ∅
  responseTurns : AList (fun _ : String => ℕ) := ∅
  lastResponse : String := ""
  responding : List String := []
  unspoken : Delivered := {}
  afterRequest : Delivered := {}
  requested : Bool := false
  createFailures : ℕ := 0
  barrier : Option ℕ := none
  batches : AList (fun _ : String => CallBatch) := ∅
  callResponse : AList (fun _ : String => String) := ∅
  inFlight : ℤ := 0
  records : List Turn := []
  acks : List AckRoutine := []
  calls : List CallRoutine := []
  /-- The session's context is done. -/
  ended : Bool := false
  oracle : Oracle := {}
  trace : List Event := []

/-- Source: `ackAttempts` -/
def ackAttempts : ℕ := 3

/-- Source: `maxCallsInFlight` -/
def maxCallsInFlight : ℤ := 8

/-- Source: `maxTrackedItems` -/
def maxTrackedItems : ℕ := 256

/-- Source: `maxCreateRetries` -/
def maxCreateRetries : ℕ := 2

/-- The output of a call when too many are running. -/
def busy : String :=
  "\x7b\"error\":\"Too many tools are running at once; wait for them before calling more.\"\x7d"

/-- Source: `toolFailure` -/
def toolFailure (deadlineExceeded : Bool) : String :=
  if deadlineExceeded then "\x7b\"error\":\"The tool took too long and did not report back; " ++
    "tell the user it may not have finished.\"\x7d"
  else "\x7b\"error\":\"Jarvis could not run this tool right now; " ++
    "tell the user and try again later.\"\x7d"

namespace Session

variable (s : Session)

def happened (e : Event) : Session := { s with trace := e :: s.trace }

/-- Whether the next write to the provider succeeds. If it fails, the session ends. Source:
`providerFailed` -/
def write : Bool × Session :=
  match s.oracle.writes with
  | [] => (true, s)
  | ok :: rest =>
    (ok, { s with oracle := { s.oracle with writes := rest }, ended := s.ended || !ok })

/-- Source: `record`; a turn is dropped if too many wait -/
def record (backlogFull : Bool) (turn : Turn) : Session :=
  if turn.itemID = "" ∨ backlogFull then s else { s with records := turn :: s.records }

/-- Source: `jarvisSpeechStarted` -/
def jarvisSpeechStarted : Session := { s with speaking := true }.happened .speechStarted

/-- Source: `jarvisSpeechStopped` -/
def jarvisSpeechStopped (itemID : String) (backlogFull : Bool) : Session :=
  let turn := s.userTurn + 1
  let itemTurns := if maxTrackedItems ≤ s.itemTurns.entries.length then ∅ else s.itemTurns
  ({ s with
    speaking := false
    userTurn := turn
    itemTurns := itemTurns.insert itemID turn }.happened .speechStopped).record backlogFull
      ⟨true, turn, itemID, ""⟩

/-- Source: `jarvisTranscript` -/
def jarvisTranscript (final user : Bool) (itemID text : String) (backlogFull : Bool) : Session :=
  if !final then s
  else if user then
    { s with itemTurns := s.itemTurns.erase itemID }.record backlogFull
      ⟨true, (s.itemTurns.lookup itemID).getD s.userTurn, itemID, text⟩
  else s.record backlogFull ⟨false, s.userTurn, itemID, text⟩

/-- Source: `startAcks` -/
def startAcks (acks : List Question) (turn : ℕ) : Session :=
  { s with
    barrier := some s.acks.length
    acks := s.acks ++ [⟨s.barrier, turn, acks, 0, false⟩]
    trace := .started s.acks.length acks turn :: s.trace }

/-- Source: `jarvisResponseCreated` -/
def jarvisResponseCreated (responseID : String) : Session :=
  let spoken := s.unspoken
  let s := { s with
    responding := s.responding.insert responseID
    responseTurns := s.responseTurns.insert responseID s.userTurn
    lastResponse := responseID
    unspoken := s.afterRequest
    afterRequest := {}
    requested := false
    createFailures := 0
    trace := .created responseID :: s.trace }
  if spoken.acks = [] then s else s.startAcks spoken.acks s.userTurn

/-- Source: `added` -/
def added (question : Option Question) : Session :=
  let d : Delivered := ⟨true, question.toList⟩
  let s := { s with trace := question.toList.map Event.added ++ s.trace }
  if s.requested then { s with afterRequest := s.afterRequest.add d }
  else { s with unspoken := s.unspoken.add d }

/-- Source: `respond` -/
def respond : Session :=
  if !s.unspoken.want ∨ s.requested ∨ s.speaking ∨ s.responding ≠ [] then s
  else
    let (ok, s) := s.write
    if ok then { s with requested := true, trace := .requested :: s.trace } else s

/-- A result is given to the model; `false` if that failed. -/
def deliverResult (r : ToolResult) : Bool × Session :=
  let (ok, s) := { s with callResponse := s.callResponse.erase r.callID }.write
  if ok then
    (true, (s.happened (.output r.callID r.output)).added
      (if r.ackRequired then some (.tool r.callID) else none))
  else (false, s)

/-- The results of a response, until one could not be given. -/
def deliverResults : List ToolResult → Session → Bool × Session
  | [], s => (true, s)
  | r :: rest, s =>
    match s.deliverResult r with
    | (true, s) => deliverResults rest s
    | (false, s) => (false, s)

/-- The results of every response that is done and has all of them. -/
def deliverBatches : List String → Session → Bool × Session
  | [], s => (true, s)
  | responseID :: rest, s =>
    match s.batches.lookup responseID with
    | none => deliverBatches rest s
    | some batch =>
      if !batch.done ∨ 0 < batch.outstanding then deliverBatches rest s
      else
        match deliverResults batch.results { s with batches := s.batches.erase responseID } with
        | (true, s) => deliverBatches rest s
        | (false, s) => (false, s)

/-- Source: `deliver`. Every batch is visited, in an order that is not known. -/
def deliver : Session :=
  let order := s.oracle.orders.headD []
  let s := { s with oracle := { s.oracle with orders := s.oracle.orders.tail } }
  match deliverBatches (order ++ s.batches.keys) s with
  | (true, s) => s.respond
  | (false, s) => s

/-- Source: `completeCall` -/
def completeCall (r : ToolResult) : Session :=
  match s.batches.lookup r.responseID with
  | none => s.deliver
  | some batch =>
    let batch := { batch with
      outstanding := batch.outstanding - 1, results := batch.results ++ [r] }
    { s with batches := s.batches.insert r.responseID batch }.deliver

/-- Source: `jarvisFunctionCall` -/
def jarvisFunctionCall (call : FunctionCall) : Session :=
  if (s.callResponse.lookup call.callID).isSome then s
  else
    let responseID := if call.responseID = "" then s.lastResponse else call.responseID
    let turn := (s.responseTurns.lookup responseID).getD s.userTurn
    let batch := (s.batches.lookup responseID).getD {}
    let s := { s with
      batches := s.batches.insert responseID { batch with outstanding := batch.outstanding + 1 }
      callResponse := s.callResponse.insert call.callID responseID
      trace := .announced call.callID responseID :: s.trace }
    if maxCallsInFlight ≤ s.inFlight then
      (s.happened (.refused call.callID responseID)).completeCall
        ⟨responseID, call.callID, busy, false⟩
    else { s with
      inFlight := s.inFlight + 1
      calls := s.calls ++ [⟨s.barrier, call.callID, responseID, turn, .waiting⟩]
      trace := .dispatched s.calls.length responseID turn :: s.trace }

/-- Source: `jarvisResponseDone` -/
def jarvisResponseDone (responseID : String) (calls : List FunctionCall) : Session :=
  let s := calls.foldl jarvisFunctionCall s
  { s with
    responding := s.responding.erase responseID
    responseTurns := s.responseTurns.erase responseID
    batches := match s.batches.lookup responseID with
      | none => s.batches
      | some batch => s.batches.insert responseID { batch with done := true }
    trace := .done responseID :: s.trace }.deliver

/-- Source: `jarvisProviderError` -/
def jarvisProviderError : Session :=
  let s := s.happened .failed
  if !s.requested then s
  else
    let s := { s with
      requested := false
      unspoken := s.unspoken.add s.afterRequest
      afterRequest := {}
      createFailures := s.createFailures + 1 }
    if maxCreateRetries < s.createFailures then
      { s with unspoken := { s.unspoken with want := false } }
    else s.respond

/-- Source: `jarvisNotice` -/
def jarvisNotice (eventID : ℤ) : Session :=
  let (ok, s) := s.write
  if ok then (s.added (some (.event eventID))).respond else s

/-- Source: `jarvisResult` -/
def jarvisResult (r : ToolResult) : Session :=
  ({ s with inFlight := s.inFlight - 1 }.happened (.taken r)).completeCall r

end Session

/-- What the loop takes in. -/
inductive Input where
  | speechStarted
  | speechStopped (itemID : String) (backlogFull : Bool)
  | transcript (final user : Bool) (itemID text : String) (backlogFull : Bool)
  | responseCreated (responseID : String)
  | responseDone (responseID : String) (calls : List FunctionCall)
  | functionCall (call : FunctionCall)
  | providerError
  | notice (eventID : ℤ)
  /-- The result of a call that has returned. -/
  | result (call : ℕ)
  deriving DecidableEq, Repr

/-- How an attempt to report a question ends; `refused` is `InvalidArgument` or `NotFound`. -/
inductive AckOutcome where
  | stored
  | refused
  | failed
  deriving DecidableEq, Repr

/-- What `CallTool` returns. -/
inductive CallReply where
  | output (output : String) (ackRequired : Bool)
  | failed (deadlineExceeded : Bool)
  deriving DecidableEq, Repr

inductive Label where
  | input (i : Input) (oracle : Oracle)
  /-- A goroutine reports its next question. -/
  | ack (routine : ℕ) (outcome : AckOutcome)
  /-- A goroutine has reported its questions, and closes its barrier. -/
  | close (routine : ℕ)
  /-- A call's barrier is closed, and it is sent. -/
  | issue (call : ℕ)
  | reply (call : ℕ) (reply : CallReply)
  /-- A call ends with the session. -/
  | leave (call : ℕ)
  | finish
  deriving DecidableEq, Repr

namespace Session

variable (s : Session)

/-- A barrier is closed, if there is one. -/
def isClosed : Option ℕ → Bool
  | none => true
  | some k => s.acks[k]?.any AckRoutine.closed

/-- Source: `startAcks`, one attempt of `sendAck` -/
def sendAck (k : ℕ) (outcome : AckOutcome) : Option Session :=
  match s.acks[k]? with
  | some ⟨previous, turn, question :: rest, attempt, false⟩ =>
    if !s.isClosed previous then none
    else
      let s := s.happened (.reported k question turn)
      if outcome = .failed ∧ attempt + 1 < ackAttempts then
        some { s with acks := s.acks.set k ⟨previous, turn, question :: rest, attempt + 1, false⟩ }
      else some { s with
        acks := s.acks.set k ⟨previous, turn, rest, 0, false⟩
        trace := .settled k question :: s.trace }
  | _ => none

/-- Source: `startAcks`, `close(done)` -/
def closeBarrier (k : ℕ) : Option Session :=
  match s.acks[k]? with
  | some ⟨previous, turn, [], attempt, false⟩ =>
    if !s.isClosed previous then none
    else some { s with acks := s.acks.set k ⟨previous, turn, [], attempt, true⟩ }
  | _ => none

/-- The status of a call changes. -/
def setCall (c : ℕ) (call : CallRoutine) (status : CallStatus) : Session :=
  { s with calls := s.calls.set c { call with status := status } }

/-- Source: `runCall`, until `CallTool` is sent -/
def issue (c : ℕ) : Option Session :=
  match s.calls[c]? with
  | some call =>
    if call.status = .waiting ∧ s.isClosed call.barrier then
      some ((s.setCall c call .issued).happened (.called c call.responseID call.turn))
    else none
  | none => none

/-- Source: `runCall`, after `CallTool` has returned -/
def reply (c : ℕ) (reply : CallReply) : Option Session :=
  match s.calls[c]? with
  | some call =>
    if call.status ≠ .issued then none
    else if s.ended then some (s.setCall c call .gone)
    else some (s.setCall c call (.returned (match reply with
      | .output output ackRequired => ⟨call.responseID, call.callID, output, ackRequired⟩
      | .failed deadlineExceeded =>
        ⟨call.responseID, call.callID, toolFailure deadlineExceeded, false⟩)))
  | none => none

/-- A call that waits, for its barrier or for the loop, ends with the session. -/
def leave (c : ℕ) : Option Session :=
  match s.calls[c]? with
  | some call => if s.ended then some (s.setCall c call .gone) else none
  | none => none

/-- Source: `providerLoop`, `handleEvent` -/
def handle : Input → Option Session
  | .speechStarted => some s.jarvisSpeechStarted
  | .speechStopped itemID full => some (s.jarvisSpeechStopped itemID full)
  | .transcript final user itemID text full => some (s.jarvisTranscript final user itemID text full)
  | .responseCreated responseID => some (s.jarvisResponseCreated responseID)
  | .responseDone responseID calls => some (s.jarvisResponseDone responseID calls)
  | .functionCall call => some (s.jarvisFunctionCall call)
  | .providerError => some s.jarvisProviderError
  | .notice eventID => some (s.jarvisNotice eventID)
  | .result c =>
    match s.calls[c]? with
    | some call =>
      match call.status with
      | .returned result => some ((s.setCall c call .gone).jarvisResult result)
      | _ => none
    | none => none

/-- One step. -/
def step : Label → Option Session
  | .input i oracle => { s with oracle := oracle }.handle i
  | .ack k outcome => s.sendAck k outcome
  | .close k => s.closeBarrier k
  | .issue c => s.issue c
  | .reply c r => s.reply c r
  | .leave c => s.leave c
  | .finish => some { s with ended := true }

end Session

end Jarvis.Gateway
