import Jarvis.Audit.Chain
import Jarvis.Fallible
import Jarvis.Json
import Jarvis.Table
import Mathlib

/-!
# The audit service: the trail

The tables `chains` and `events`, and `Append` and `Verify` on them. Sources:
`services/audit/internal/store/store.go`, `migrations/0001_init.sql`. Every statement names its
tenant, so that a tenant's rows are kept together (`Ledger`).

`Append` is here the function that one call computes when nothing comes between its statements. What
a column cannot be read as, and what the database refuses to insert, is an error without a text.
-/

namespace Jarvis.Audit

open Table

/-- A `jsonb` document; the members of an object are in the order of their keys. -/
structure Jsonb where
  value : Json
  sorted : ∀ kvs, value = .obj kvs → kvs.Pairwise fun a b => a.1 < b.1

/-- A value of a `timestamptz` column. -/
inductive Timestamptz where
  | negInfinity
  | finite (t : Timestamp)
  | infinity
  deriving DecidableEq

/-- A row of `events`. -/
structure Row where
  tenantId : UUID
  sequence : ℤ
  eventId : UUID
  occurTime : Timestamptz
  recordTime : Timestamptz
  actorKind : String
  actorId : String
  onBehalfOf : String
  action : String
  targetType : String
  targetId : String
  outcome : String
  reason : String
  requestId : String
  details : Jsonb
  source : String
  prevHash : Bytes
  hash : Bytes

/-- A row of `chains`. -/
structure Head where
  lastSequence : ℤ
  lastHash : Bytes
  deriving DecidableEq

/-- The rows of one tenant. -/
structure Ledger where
  head : Option Head
  events : List Row

inductive StoreError where
  /-- A column cannot be read into its variable. -/
  | scan
  /-- A query for one row finds none. -/
  | noRows
  /-- A row violates a constraint, or a text cannot be stored. -/
  | insert
  deriving DecidableEq

/-! ### Rows and events -/

/-- What `map[string]string` is written as. -/
def Details.jsonb (d : Details) : Jsonb where
  value := .obj (d.entries.map fun kv => (kv.1, .str kv.2))
  sorted := by
    rintro kvs ⟨⟩
    exact List.pairwise_map.mpr d.sorted

/-- A member that is read into a `map[string]string`: `null` is the empty string. -/
def scanValue : String × Json → Option (String × String)
  | (k, .str s) => some (k, s)
  | (k, .null) => some (k, "")
  | _ => none

theorem scanValue_key (h : scanValue kv = some d) :
    d.1 = kv.1 := by
  unfold scanValue at h
  split at h <;> cases h <;> rfl

/-- The members of an object keep their keys. -/
theorem scanEntries_keys : ∀ {kvs : List (String × Json)} {es : List (String × String)},
    kvs.mapM scanValue = some es → es.map Prod.fst = kvs.map Prod.fst
  | [], es, h => by
    obtain rfl : [] = es := Option.some.inj h
    rfl
  | kv :: kvs, es, h => by
    rw [List.mapM_cons] at h
    obtain ⟨d, hd, h⟩ := Option.bind_eq_some_iff.mp h
    obtain ⟨ds, hds, h⟩ := Option.bind_eq_some_iff.mp h
    cases h
    rw [List.map_cons, List.map_cons, scanValue_key hd, scanEntries_keys hds]

/-- Reading `details` into a `map[string]string`: `null` is the empty map. -/
def scanDetails (j : Jsonb) : Option Details :=
  match hj : j.value with
  | .null => some .empty
  | .obj kvs =>
    match hes : kvs.mapM scanValue with
    | none => none
    | some es => some ⟨es, by
        have hs := List.pairwise_map.mpr (j.sorted kvs hj)
        rw [← scanEntries_keys hes] at hs
        exact List.pairwise_map.mp hs⟩
  | _ => none

/-- Reading a time into a `time.Time`. -/
def scanTime : Timestamptz → Option Timestamp
  | .finite t => some t
  | _ => none

/-- Reading a row. Source: `Scan` in `Verify` -/
def Row.scan (r : Row) : Option Event := do
  let occurTime ← scanTime r.occurTime
  let recordTime ← scanTime r.recordTime
  let details ← scanDetails r.details
  return ⟨r.tenantId, r.sequence, r.eventId, occurTime, recordTime, r.actorKind,
    r.actorId, r.onBehalfOf,
    r.action, r.targetType, r.targetId, r.outcome, r.reason, r.requestId, r.source, details⟩

/-- The row of an event. -/
def Event.row (e : Event) (prevHash hash : Bytes) : Row where
  tenantId := e.tenantId
  sequence := e.sequence
  eventId := e.eventId
  occurTime := .finite e.occurTime
  recordTime := .finite e.recordTime
  actorKind := e.actorKind
  actorId := e.actorId
  onBehalfOf := e.onBehalfOf
  action := e.action
  targetType := e.targetType
  targetId := e.targetId
  outcome := e.outcome
  reason := e.reason
  requestId := e.requestId
  details := e.details.jsonb
  source := e.source
  prevHash := prevHash
  hash := hash

/-! ### Append -/

/-- No text has a NUL, which PostgreSQL does not store. -/
def Event.storable (e : Event) : Bool := e.texts.all fun s => '\x00' ∉ s.toList

/-- `INSERT INTO events`, with its constraints -/
def Ledger.insert (e : Event) (prevHash hash : Bytes) (l : Ledger) : Except StoreError Ledger := do
  ensure (e.storable ∧ 1 ≤ e.sequence ∧
    ∀ r ∈ l.events, r.sequence ≠ e.sequence ∧ r.eventId ≠ e.eventId) .insert
  return { l with events := Table.insert (e.row prevHash hash) l.events }

section

variable (sha256 : Bytes → Fixed 32)

/-- The variables of the loop of `appendTenant`: the queued events, each with the hash before it. -/
structure Queue where
  seen : List UUID
  sequence : ℤ
  prev : Bytes
  queued : List (Event × Bytes)
  duplicates : ℕ
  deriving DecidableEq

/-- The body of the loop of `appendTenant`. -/
def Queue.add (source : String) (recordTime : Timestamp) (q : Queue) (e : Event) : Queue :=
  if e.eventId ∈ q.seen then { q with duplicates := q.duplicates + 1 }
  else
    let e := { e with
      sequence := int64 (q.sequence + 1), source := source, recordTime := recordTime }
    { q with
      seen := q.seen ++ [e.eventId]
      sequence := e.sequence
      prev := hash sha256 q.prev e
      queued := q.queued ++ [(e, q.prev)] }

/-- What `appendTenant` knows once it has locked the chain and read the ids that are stored. -/
def Ledger.queue (events : List Event) (l : Ledger) : Queue :=
  let head := l.head.getD ⟨0, []⟩
  let ids := events.map Event.eventId
  ⟨(l.events.filter fun r => r.eventId ∈ ids).map Row.eventId, head.lastSequence, head.lastHash,
    [], 0⟩

/-- `INSERT INTO chains … ON CONFLICT DO NOTHING` -/
def Ledger.ensureChain (l : Ledger) : Ledger := { l with head := some (l.head.getD ⟨0, []⟩) }

/-- Sending the batch: the events, then the head. -/
def Ledger.write (q : Queue) (l : Ledger) : Except StoreError Ledger :=
  if q.queued = [] then .ok l
  else do
    let l ← q.queued.foldlM (fun l x => l.insert x.1 x.2 (hash sha256 x.2 x.1)) l
    return { l with head := some ⟨q.sequence, q.prev⟩ }

/-- How many events a call has recorded, and how many it has skipped. -/
structure Counts where
  recorded : ℕ
  duplicates : ℕ
  deriving DecidableEq, Repr

/-- Source: `appendTenant` -/
def Ledger.append (source : String) (recordTime : Timestamp) (events : List Event) (l : Ledger) :
    Except StoreError (Counts × Ledger) := do
  let l := l.ensureChain
  let q := events.foldl (Queue.add sha256 source recordTime) (l.queue events)
  let l ← l.write sha256 q
  return (⟨q.queued.length, q.duplicates⟩, l)

/-- The tables. -/
abbrev DB := UUID → Ledger

/-- The tenants of a batch, in order. -/
def tenantsOf (events : List Event) : List UUID :=
  (events.map Event.tenantId).dedup.insertionSort fun a b => a.1 ≤ b.1

/-- The events of one tenant in a batch. -/
def eventsOf (tenant : UUID) (events : List Event) : List Event :=
  events.filter fun e => e.tenantId = tenant

/-- One tenant of a batch. -/
def appendOne (source : String) (recordTime : Timestamp) (events : List Event) (x : Counts × DB)
    (tenant : UUID) : Except StoreError (Counts × DB) := do
  let (c, l) ← (x.2 tenant).append sha256 source recordTime (eventsOf tenant events)
  return (⟨x.1.recorded + c.recorded, x.1.duplicates + c.duplicates⟩, Function.update x.2 tenant l)

/-- Source: `Append` -/
def append (source : String) (recordTime : Timestamp) (events : List Event) (db : DB) :
    Except StoreError (Counts × DB) :=
  (tenantsOf events).foldlM (appendOne sha256 source recordTime events) (⟨0, 0⟩, db)

/-! ### Verify -/

/-- Source: `Verification` -/
structure Verification where
  intact : Bool
  events : ℤ
  firstBroken : ℤ
  head : Bytes
  deriving DecidableEq, Repr

/-- Source: the closure `broken` of `Verify` -/
def Verification.broken (sequence : ℤ) (v : Verification) : Verification :=
  if v.intact then { v with intact := false, firstBroken := sequence } else v

def verifyPage : ℕ := 1000

/-- The query of `Verify`: the next page after a sequence. -/
def Ledger.page (l : Ledger) (after : ℤ) : List Row :=
  (orderBy Row.sequence (l.events.filter fun r => after < r.sequence)).take verifyPage

/-- The body of the inner loop of `Verify`, with `prev`. -/
def verifyRow (x : Verification × Bytes) (r : Row) : Except StoreError (Verification × Bytes) := do
  let e ← okOr .scan r.scan
  let v := x.1
  let expected := int64 (v.events + 1)
  let v := if r.sequence ≠ expected then v.broken expected else v
  let computed := hash sha256 x.2 e
  let v := if r.prevHash ≠ x.2 ∨ r.hash ≠ computed then v.broken r.sequence else v
  return ({ v with events := r.sequence }, computed)

/-- The loop of `Verify`, for so many pages; `none` if these are not enough. -/
def verifyPages (l : Ledger) : ℕ → Verification × Bytes →
    Option (Except StoreError (Verification × Bytes))
  | 0, _ => none
  | k + 1, x =>
    let rows := l.page x.1.events
    match rows.foldlM (verifyRow sha256) x with
    | .error e => some (.error e)
    | .ok x => if rows.length < verifyPage then some (.ok x) else verifyPages l k x

/-- The end of `Verify`: the head is compared. -/
def Ledger.compareHead (l : Ledger) (x : Verification × Bytes) : Verification :=
  let head := l.head.getD ⟨0, []⟩
  let v := x.1
  let v := if head.lastSequence ≠ v.events ∨ head.lastHash ≠ x.2 then
    v.broken (int64 (v.events + 1))
    else v
  { v with head := x.2 }

/-- Source: `Verify` -/
def Ledger.verify (l : Ledger) : Option (Except StoreError Verification) :=
  (verifyPages sha256 l (l.events.length + 1) (⟨true, 0, 0, []⟩, [])).map fun r =>
    r.map l.compareHead

end

end Jarvis.Audit
