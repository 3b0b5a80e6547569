import Jarvis.Interleave.Prog
import Jarvis.Orchestrator.Catalog
import Jarvis.Orchestrator.Network
import Jarvis.Orchestrator.Store

/-!
# What the engine asks of the world

`Instr` are the requests the engine makes: statements of the store, calls of other services and
devices, the clock, fresh ids. `Answer` is what each returns, `Shared` the state all processes
share, and `answer` how a request is answered. What is not determined by the shared state (whether
a statement fails, what another service says) is decided by an `Oracle`.

A statement can go through, fail without effect, or take effect while its caller gets an error (the
connection breaks after the commit).
-/

namespace Jarvis.Orchestrator

open Interleave

/-- Why the engine calls a tool of an integration. It is not sent: it records which of the two
callers of `callMCP` the call came from. -/
inductive Cause where
  /-- `dispatch`, for a tool that runs at once. -/
  | tool (target : Target)
  /-- `runAction`, for a confirmation that was settled. -/
  | confirmed (c : Confirmation)

/-- A block of a tool's result. Source: `mcp.proto` `ContentBlock` -/
inductive Block where
  | text (s : String)
  | resourceLink (uri : String)
  | resource (text : String)
  | other
  deriving DecidableEq, Repr

/-- Source: `mcp.proto` `CallToolResponse` -/
structure McpResponse where
  content : List Block
  structured : String
  truncated : Bool
  isError : Bool
  deriving DecidableEq, Repr

/-- An error of the MCP router: its status and the reason in its details. -/
structure McpError where
  status : Status
  reason : String
  deriving DecidableEq, Repr

/-- What the sidecar extracts from a transcript; only whether it is empty matters here.
Source: `agent.proto` `ExtractKnowledgeResponse` -/
structure Extraction where
  empty : Bool
  deriving DecidableEq, Repr

/-- A request of the engine. -/
inductive Instr where
  /-- A method of the store. -/
  | db (q : Query)
  /-- `uuid.New` -/
  | newUUID
  /-- `time.Now` -/
  | now
  /-- Whether the context has ended. -/
  | ctxErr
  /-- `MCP.ListTools` -/
  | listTools (tenant : UUID) (user : String)
  /-- `MCP.CallTool` -/
  | mcpCall (cause : Cause) (tenant : UUID) (user integrationID tool args : String)
  /-- `Knowledge.Retrieve` -/
  | retrieve (tenant : UUID) (user query : String) (budget : ℕ)
  /-- `Knowledge.UpsertKnowledge`, of a note -/
  | upsertNote (tenant : UUID) (user note : String)
  /-- `Keys.ProviderKey` -/
  | providerKey (tenant : UUID) (provider : Provider)
  /-- `Agent.Decide` -/
  | decide (task : UUID) (provider : Provider) (items : List Item) (tools : Tools)
  /-- `Agent.ExtractKnowledge` -/
  | extractKnowledge (conversation : Conversation) (turns : List TurnRow)
  /-- `Knowledge.UpsertKnowledge`, of an extraction -/
  | upsertExtraction (conversation : Conversation) (e : Extraction)
  /-- `Devices.Client`, for a command with or without an approval -/
  | deviceClient (device : Device) (approval : Option Approval)
  /-- `ExecuteCommand`: the request leaves. -/
  | deviceSend (device : Device) (command : Command) (approval : Option Approval)
  /-- `ExecuteCommand`: its answer, or the error that ends the wait for it. -/
  | deviceRecv (id : ℕ) (approval : Option Approval)
  /-- `Sealer.Seal` -/
  | seal (tenant device : UUID)
  /-- `Audit.Record` -/
  | audit (e : AuditEvent)

/-- What a request returns. -/
abbrev Answer : Instr → Type
  | .db q => Res q.Result
  | .newUUID => UUID
  | .now => Time
  | .ctxErr => Bool
  | .listTools .. => Option (List McpTool)
  | .mcpCall .. => Except McpError McpResponse
  | .retrieve .. => Option String
  | .upsertNote .. => Bool
  | .providerKey .. => KeyAnswer
  | .decide .. => Except Code DecideResponse
  | .extractKnowledge .. => Except Code Extraction
  | .upsertExtraction .. => Except Code Unit
  | .deviceClient .. => Except Status Unit
  | .deviceSend .. => ℕ
  | .deviceRecv .. => Except Status DeviceResponse
  | .seal .. => Except Code Unit
  | .audit _ => Unit

/-- An operation of the engine. -/
abbrev Op (α : Type) := Prog Instr Answer α

/-- What a thread has exchanged, newest first. -/
abbrev Log := Past Instr Answer

/-- Make a request. -/
def ask (i : Instr) : Op (Answer i) := Prog.call i

/-- Call a method of the store. -/
def query (q : Query) : Op (Res q.Result) := ask (.db q)

/-- Do something only under a condition. -/
def onlyIf (b : Prop) [Decidable b] (p : Op Unit) : Op Unit := if b then p else pure ()

/-! ## Shared state -/

/-- The state all processes share. -/
structure Shared where
  db : DB := {}
  /-- The database's clock. -/
  now : Time := 0
  net : Net := {}

/-- What the world decides about a request. -/
inductive Oracle where
  /-- The statement goes through; `locked` are the rows other transactions hold. -/
  | commit (locked : List ℕ)
  /-- The statement fails and changes nothing. -/
  | fail
  /-- The statement takes effect, but its caller gets an error. -/
  | lost (locked : List ℕ)
  | uuid (u : UUID)
  | time (t : Time)
  | flag (b : Bool)
  | tools (ts : Option (List McpTool))
  | mcp (r : Except McpError McpResponse)
  | context (c : Option String)
  | key (k : KeyAnswer)
  | decision (r : Except Code DecideResponse)
  | extraction (r : Except Code Extraction)
  | outcome (r : Except Code Unit)
  | client (r : Except Status Unit)
  /-- The request or its answer gets through. -/
  | through
  /-- The wait for an answer ends with an error of the connection. -/
  | broken (s : Status)

/-- The statement fails and changes nothing. -/
def Oracle.fails : Oracle → Bool
  | .fail => true
  | _ => false

/-- The statement takes effect, but its caller gets an error. -/
def Oracle.isLost : Oracle → Bool
  | .lost _ => true
  | _ => false

/-- The codes with which the client itself ends a call: broken connections, deadlines and
cancellations. -/
def Code.local_ : Code → Bool
  | .canceled | .unknown | .deadlineExceeded | .resourceExhausted | .internal | .unavailable => true
  | _ => false

/-- How a request is answered. -/
def answer (s : Shared) : (i : Instr) → Oracle → Option (Answer i × Shared)
  | .db q, .commit locked =>
    let r := q.exec locked s.now s.db
    some (r.1, { s with db := r.2 })
  | .db _, .fail => some (.error .failed, s)
  | .db q, .lost locked => some (.error .failed, { s with db := (q.exec locked s.now s.db).2 })
  | .newUUID, .uuid u => some (u, s)
  | .now, .time t => some (t, s)
  | .ctxErr, .flag b => some (b, s)
  | .listTools .., .tools ts => some (ts, s)
  | .mcpCall .., .mcp r => some (r, s)
  | .retrieve .., .context c => some (c, s)
  | .upsertNote .., .flag b => some (b, s)
  | .providerKey .., .key k => some (k, s)
  | .decide .., .decision r => some (r, s)
  | .extractKnowledge .., .extraction r => some (r, s)
  | .upsertExtraction .., .outcome r => some (r, s)
  | .deviceClient .., .client r => some (r, s)
  | .deviceSend d c a, .through =>
    let r := s.net.send d.id c a
    some (r.1, { s with net := r.2 })
  | .deviceRecv id _, .through => (s.net.answer id).map fun r => (r, s)
  | .deviceRecv .., .broken st => if st.code.local_ then some (.error st, s) else none
  | .seal .., .outcome r => some (r, s)
  | .audit _, .through => some ((), s)
  | _, _ => none

/-- How the world changes by itself. -/
inductive World where
  /-- The database's clock shows another time. -/
  | clock (t : Time)
  /-- A request arrives at its device. -/
  | deliver (id : ℕ) (h : Handling)
  /-- A request is lost on the way. -/
  | lose (id : ℕ)
  /-- A daemon restarts. -/
  | restart (device : UUID)

/-- What a change of the world does. -/
def World.step (s : Shared) : World → Option Shared
  | .clock t => some { s with now := t }
  | .deliver id h => (s.net.deliver id h).map fun net => { s with net }
  | .lose id => (s.net.lose id).map fun net => { s with net }
  | .restart d => some { s with net := s.net.restart d }

/-! ### What a request changes -/

section

variable {s s' : Shared} {o : Oracle}

variable {q : Query} {r : Res q.Result} {x : q.Result} {i : Instr}

/-- **What a statement can do**: it runs, it fails and changes nothing, or it runs and its answer is
lost. -/
theorem answer_db_cases (h : answer s (.db q) o = some (r, s')) :
    (∃ locked, o = .commit locked ∧ r = (q.exec locked s.now s.db).1 ∧
      s' = { s with db := (q.exec locked s.now s.db).2 }) ∨
    (o = .fail ∧ r = .error .failed ∧ s' = s) ∨
    ∃ locked, o = .lost locked ∧ r = .error .failed ∧
      s' = { s with db := (q.exec locked s.now s.db).2 } := by
  cases o <;> simp only [answer, Option.some.injEq, Prod.mk.injEq, reduceCtorEq] at h
  case commit locked => exact .inl ⟨locked, rfl, h.1.symm, h.2.symm⟩
  case fail => exact .inr (.inl ⟨rfl, h.1.symm, h.2.symm⟩)
  case lost locked => exact .inr (.inr ⟨locked, rfl, h.1.symm, h.2.symm⟩)

/-- A statement fails and changes nothing, or it runs, and its caller gets what it returned or an
error. -/
theorem answer_db (h : answer s (.db q) o = some (r, s')) :
    (r = .error .failed ∧ s' = s) ∨ ∃ locked, s' = { s with db := (q.exec locked s.now s.db).2 } ∧
      (r = (q.exec locked s.now s.db).1 ∨ r = .error .failed) := by
  obtain ⟨locked, -, hr, hs⟩ | ⟨-, hr, hs⟩ | ⟨locked, -, hr, hs⟩ := answer_db_cases h
  · exact .inr ⟨locked, hs, .inl hr⟩
  · exact .inl ⟨hr, hs⟩
  · exact .inr ⟨locked, hs, .inr hr⟩

/-- A statement that returned a value ran. -/
theorem answer_ok (h : answer s (.db q) o = some (.ok x, s')) :
    ∃ locked, s' = { s with db := (q.exec locked s.now s.db).2 } ∧
      (q.exec locked s.now s.db).1 = .ok x := by
  rcases answer_db h with ⟨hr, -⟩ | ⟨locked, hs, hr | hr⟩
  · cases hr
  · exact ⟨locked, hs, hr.symm⟩
  · cases hr

/-- A statement that returned a value did not fail, and its answer was not lost. -/
theorem answer_ok_oracle (h : answer s (.db q) o = some (.ok x, s')) :
    o.fails = false ∧ o.isLost = false := by
  obtain ⟨locked, rfl, -⟩ | ⟨-, hr, -⟩ | ⟨-, -, hr, -⟩ := answer_db_cases h
  · exact ⟨rfl, rfl⟩
  · cases hr
  · cases hr

/-- A statement that does not fail runs. -/
theorem answer_runs (h : answer s (.db q) o = some (r, s')) (ho : o.fails = false) :
    ∃ locked, s' = { s with db := (q.exec locked s.now s.db).2 } := by
  obtain ⟨locked, -, -, hs⟩ | ⟨rfl, -⟩ | ⟨locked, -, -, hs⟩ := answer_db_cases h
  · exact ⟨locked, hs⟩
  · cases ho
  · exact ⟨locked, hs⟩

/-- A statement that fails changes nothing. -/
theorem answer_fails (h : answer s (.db q) o = some (r, s')) (ho : o.fails = true) : s' = s := by
  obtain ⟨locked, rfl, -⟩ | ⟨-, -, hs⟩ | ⟨locked, rfl, -⟩ := answer_db_cases h
  · cases ho
  · exact hs
  · cases ho

/-- A statement whose answer is not lost changes nothing, or its caller gets what it returned. -/
theorem answer_told (h : answer s (.db q) o = some (r, s')) (ho : o.isLost = false) :
    s' = s ∨ ∃ locked,
      s' = { s with db := (q.exec locked s.now s.db).2 } ∧ r = (q.exec locked s.now s.db).1 := by
  obtain ⟨locked, -, hr, hs⟩ | ⟨-, -, hs⟩ | ⟨locked, rfl, -⟩ := answer_db_cases h
  · exact .inr ⟨locked, hs, hr⟩
  · exact .inl hs
  · cases ho

/-- **What any other request can do**: only sending to a device changes anything. -/
theorem answer_other {r : Answer i} (hi : ∀ q, i ≠ .db q) (h : answer s i o = some (r, s')) :
    s' = s ∨ ∃ d c a, i = .deviceSend d c a ∧ s' = { s with net := (s.net.send d.id c a).2 } := by
  cases i
  case db q => exact absurd rfl (hi q)
  case deviceSend d c a =>
    cases o <;> simp only [answer, Option.some.injEq, Prod.mk.injEq, reduceCtorEq] at h
    exact .inr ⟨d, c, a, rfl, h.2.symm⟩
  case deviceRecv id a =>
    cases o <;> simp only [answer, reduceCtorEq] at h
    · obtain ⟨x, -, hx⟩ := Option.map_eq_some_iff.mp h
      exact .inl (Prod.mk.inj hx).2.symm
    · split_ifs at h
      exact .inl (Prod.mk.inj (Option.some.inj h)).2.symm
  all_goals
    cases o <;> simp only [answer, Option.some.injEq, Prod.mk.injEq, reduceCtorEq] at h
    exact .inl h.2.symm

/-- The database changes only by a statement that runs. -/
theorem answer_db_eq {r : Answer i} (h : answer s i o = some (r, s')) :
    s'.db = s.db ∨ ∃ q locked, i = .db q ∧ s'.db = (q.exec locked s.now s.db).2 := by
  by_cases hi : ∃ q, i = .db q
  · obtain ⟨q, rfl⟩ := hi
    rcases answer_db h with ⟨-, rfl⟩ | ⟨locked, rfl, -⟩
    · exact .inl rfl
    · exact .inr ⟨q, locked, rfl, rfl⟩
  · rcases answer_other (fun q hq => hi ⟨q, hq⟩) h with rfl | ⟨d, c, a, -, rfl⟩ <;> exact .inl rfl

end

/-- The world leaves the database alone. -/
theorem World.step_db {s s' : Shared} {v : World} (h : v.step s = some s') : s'.db = s.db := by
  cases v <;> simp only [World.step, Option.some.injEq, Option.map_eq_some_iff] at h
  case clock => rw [← h]
  case restart => rw [← h]
  all_goals
    obtain ⟨net, -, rfl⟩ := h
    rfl

end Jarvis.Orchestrator
