import Mathlib.Data.Int.Notation
import Mathlib.Data.List.Basic

/-!
# Recording audit events in the background

The `Recorder` that every Go service uses: goroutines that call `Record`, one that calls `Close`,
and the loop that sends events in batches. Source: `libs/go/auditlog/auditlog.go`. The goroutines
take their steps in any order, and the audit service answers every call as it likes. What was passed
to `Record`, what the service has accepted and what was written to the log is kept.

When events are sent, and how often a batch is tried, depends on timers, which may elapse at any
time.
-/

namespace Jarvis.AuditLog

/-- Source: `Options` -/
structure Options where
  queueSize : ℕ
  batchSize : ℕ
  queueSize_pos : 0 < queueSize
  batchSize_pos : 0 < batchSize

/-- Source: `New` -/
def Options.new (queueSize batchSize : ℤ) : Options where
  queueSize := if queueSize ≤ 0 then 10000 else queueSize.toNat
  batchSize := if batchSize ≤ 0 ∨ 500 < batchSize then 200 else batchSize.toNat
  queueSize_pos := by split <;> omega
  batchSize_pos := by split <;> omega

/-- Why an event was written to the log as not delivered. -/
inductive Why where
  | closed
  | full
  | unreachable
  | malformed
  deriving DecidableEq, Repr

variable {E : Type}

/-- A goroutine in `Record`: before it has looked at `closed`, or after it has seen that it is not
set. -/
structure Caller (E : Type) where
  event : E
  checked : Bool
  deriving DecidableEq

/-- Where the loop is. -/
inductive Loop (E : Type) where
  /-- at its head -/
  | top (batch : List E) (stopping : Bool)
  /-- taking everything still queued -/
  | draining (batch : List E)
  /-- about to send, unless there is nothing -/
  | flushing (batch : List E) (stopping : Bool)
  /-- in `call` with the batch -/
  | sending (batch : List E) (stopping : Bool)
  /-- in `call` with one event, so many of the batch are done; the batch was refused -/
  | resending (batch : List E) (done : ℕ) (stopping : Bool)
  /-- waiting before the next attempt -/
  | waiting (batch : List E)
  /-- writing the batch to the log -/
  | dropping (batch : List E)
  /-- writing what is still queued to the log -/
  | emptying
  | stopped
  deriving DecidableEq

/-- Source: `Recorder`, and what has become of the events -/
structure Recorder (E : Type) where
  queue : List E
  closed : Bool
  stop : Bool
  loop : Loop E
  callers : List (Caller E)
  passed : List E
  accepted : List E
  logged : List (E × Why)
  dropped : ℕ

def Recorder.init : Recorder E := ⟨[], false, false, .top [] false, [], [], [], [], 0⟩

/-- How a call to the audit service ends: accepted, refused (`InvalidArgument`), or with another
error. A call that times out may have been accepted all the same. -/
inductive Answer where
  | ok
  | invalid
  | error (accepted : Bool)
  deriving DecidableEq, Repr

inductive Label (E : Type) where
  /-- `Record` is called. -/
  | record (e : E)
  /-- A caller looks at `closed`. -/
  | check (caller : ℕ)
  /-- A caller puts its event into the queue, if there is room. -/
  | enqueue (caller : ℕ)
  /-- `Close`: `r.closed.Store(true)` -/
  | close
  /-- `Close`: `close(r.stop)` -/
  | stop
  /-- The loop takes an event from the queue. -/
  | take
  /-- The ticker ticks. -/
  | tick
  /-- The loop sees that it is to stop. -/
  | see
  /-- The loop goes on. -/
  | go
  /-- The audit service answers. -/
  | answer (a : Answer)
  /-- The time before the next attempt is over. -/
  | elapse
  deriving DecidableEq

namespace Recorder

variable (o : Options) (r : Recorder E)

/-- Source: `r.dropped.Add(1)`, `undelivered` -/
def undelivered (e : E) (why : Why) : Recorder E :=
  { r with logged := (e, why) :: r.logged, dropped := r.dropped + 1 }

/-- A caller has returned. -/
def returned (i : ℕ) : Recorder E := { r with callers := r.callers.eraseIdx i }

/-- Source: `Record`, `if r.closed.Load()` -/
def check (i : ℕ) : Option (Recorder E) :=
  match r.callers[i]? with
  | some ⟨e, false⟩ =>
    if r.closed then some ((r.undelivered e .closed).returned i)
    else some { r with callers := r.callers.set i ⟨e, true⟩ }
  | _ => none

/-- Source: `Record`, `select` -/
def enqueue (i : ℕ) : Option (Recorder E) :=
  match r.callers[i]? with
  | some ⟨e, true⟩ =>
    if r.queue.length < o.queueSize then some ({ r with queue := r.queue ++ [e] }.returned i)
    else some ((r.undelivered e .full).returned i)
  | _ => none

/-- The service has accepted the events, if it is so. -/
def committed (accepted : Bool) (events : List E) : Recorder E :=
  { r with accepted := (if accepted then events else []) ++ r.accepted }

/-- The batch could not be sent. -/
def failed (batch : List E) (stopping : Bool) : Recorder E :=
  { r with loop := if stopping then .dropping batch else .waiting batch }

/-- Source: `batch[:n]` -/
def head (batch : List E) : List E := batch.take (min batch.length o.batchSize)

/-- Source: `batch[n:]` -/
def rest (batch : List E) : List E := batch.drop (min batch.length o.batchSize)

/-- Source: `loop`, between two selects and calls -/
def go : Option (Recorder E) :=
  match r.loop with
  | .top batch true => some { r with loop := .draining batch }
  | .top batch false =>
    if o.batchSize ≤ batch.length then some { r with loop := .flushing batch false } else none
  | .draining batch =>
    if batch.length < o.batchSize then
      match r.queue with
      | e :: queue => some { r with queue := queue, loop := .draining (batch ++ [e]) }
      | [] => some { r with loop := .flushing batch true }
    else some { r with loop := .flushing batch true }
  | .flushing [] stopping => some { r with loop := if stopping then .stopped else .top [] false }
  | .flushing batch stopping => some { r with loop := .sending batch stopping }
  | .resending batch done stopping =>
    if (head o batch).length ≤ done then some { r with loop := .top (rest o batch) stopping } else
      none
  | .dropping (e :: batch) => some { r.undelivered e .unreachable with loop := .dropping batch }
  | .dropping [] => some { r with loop := .emptying }
  | .emptying =>
    match r.queue with
    | e :: queue => some { r.undelivered e .unreachable with queue := queue }
    | [] => some { r with loop := .stopped }
  | _ => none

/-- Source: `send` -/
def answer (a : Answer) : Option (Recorder E) :=
  match r.loop with
  | .sending batch stopping =>
    match a with
    | .ok => some { r with
        accepted := head o batch ++ r.accepted
        loop := .top (rest o batch) stopping }
    | .invalid => some { r with loop := .resending batch 0 stopping }
    | .error accepted => some ((r.committed accepted (head o batch)).failed batch stopping)
  | .resending batch done stopping =>
    (head o batch)[done]?.map fun e =>
      match a with
      | .ok => { r with accepted := e :: r.accepted, loop := .resending batch (done + 1) stopping }
      | .invalid => { r.undelivered e .malformed with loop := .resending batch (done + 1) stopping }
      | .error accepted => (r.committed accepted [e]).failed batch stopping
  | _ => none

/-- One step. -/
def step : Label E → Option (Recorder E)
  | .record e => some { r with passed := e :: r.passed, callers := ⟨e, false⟩ :: r.callers }
  | .check i => r.check i
  | .enqueue i => r.enqueue o i
  | .close => if r.closed then none else some { r with closed := true }
  | .stop => if r.closed ∧ !r.stop then some { r with stop := true } else none
  | .take =>
    match r.loop, r.queue with
    | .top batch false, e :: queue =>
      if batch.length < o.batchSize then
        some { r with queue := queue, loop := .top (batch ++ [e]) false }
      else none
    | _, _ => none
  | .tick =>
    match r.loop with
    | .top batch false =>
      if batch.length < o.batchSize then some { r with loop := .flushing batch false } else none
    | _ => none
  | .see =>
    match r.loop with
    | .top batch false =>
      if batch.length < o.batchSize ∧ r.stop then some { r with loop := .draining batch } else none
    | .waiting batch => if r.stop then some { r with loop := .top batch true } else none
    | _ => none
  | .go => r.go o
  | .answer a => r.answer o a
  | .elapse =>
    match r.loop with
    | .waiting batch => some { r with loop := .top batch false }
    | _ => none

end Recorder

end Jarvis.AuditLog
