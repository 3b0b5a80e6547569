import Jarvis.Fallible
import Jarvis.Pool
import Jarvis.Table
import Jarvis.Vault.Types

/-!
# The Vault: the key store

The tables `provider_keys` and `create_key_requests`, and the calls `create`, `fetch_sealed`, `list`
and `revoke` on them. Sources: `services/vault/src/store.rs`, `migrations/20260923000000_init.sql`.

Calls run at the same time, statement by statement (`Pool`). The transaction of `create` keeps what
it writes to itself until it commits (`Work`); meanwhile it holds the request id it has inserted,
its advisory lock, the rows it has updated and the row it has inserted, and a statement that needs
one of these in another transaction waits. A statement sees what is committed when it begins, and
what its own transaction wrote. `fetch_sealed`, `list`, `revoke` and the answer to a repeated
request run each statement by itself. A call that is given up (its caller went away, a statement
failed) leaves no reply, and its transaction is rolled back.

Columns with a fixed set of texts are enumerations here, so that reading a row back cannot fail.
-/

namespace Jarvis.Vault

open Pool

/-- A row of `provider_keys`. -/
structure KeyRow where
  keyId : Uuid
  tenantId : Uuid
  provider : Provider
  label : String
  keyHint : String
  status : KeyStatus
  kekId : Option String
  wrappedDek : Option Bytes
  dekNonce : Option Bytes
  ciphertext : Option Bytes
  nonce : Option Bytes
  createdBy : String
  createTime : Time
  revokedBy : Option String
  revokeTime : Option Time
  revocationReason : Option RevocationReason
  deriving DecidableEq, Repr

/-- A row of `create_key_requests`. -/
structure RequestRow where
  tenantId : Uuid
  requestId : Uuid
  payloadFingerprint : Bytes
  keyId : Uuid
  replacedKeyId : Option Uuid
  createTime : Time
  deriving DecidableEq, Repr

structure DB where
  keys : List KeyRow
  requests : List RequestRow
  deriving DecidableEq, Repr

/-- Source: `Idempotency` -/
structure Idempotency where
  requestId : Uuid
  fingerprint : Bytes
  deriving DecidableEq, Repr

/-- Source: `NewKey` -/
structure NewKey where
  keyId : Uuid
  tenantId : Uuid
  provider : Provider
  label : String
  keyHint : String
  sealed : SealedSecret
  replaceActive : Bool
  createdBy : String
  idempotency : Option Idempotency
  deriving DecidableEq, Repr

/-- Source: `Created` -/
structure Created where
  key : KeyMetadata
  replaced : Option KeyMetadata
  replayed : Bool
  deriving DecidableEq, Repr

/-- Source: `KeySelector` -/
inductive KeySelector where
  | id (keyId : Uuid)
  | activeFor (provider : Provider)
  deriving DecidableEq, Repr

/-- Source: `StoredSecret` -/
structure StoredSecret where
  key : KeyMetadata
  sealed : SealedSecret
  deriving DecidableEq, Repr

/-! ### Statements -/

/-- Source: `TryFrom<MetadataRow> for KeyMetadata` -/
def KeyRow.metadata (r : KeyRow) : KeyMetadata :=
  ⟨r.keyId, r.tenantId, r.provider, r.label, r.keyHint, r.status, r.createTime, r.revokeTime,
    r.revocationReason⟩

/-- Source: `revoke_assignments!`, and the reason and the caller that follow it -/
def KeyRow.revoke (reason : RevocationReason) (revokedBy : String) (now : Time)
    (r : KeyRow) : KeyRow :=
  { r with
    status := .revoked
    revokeTime := some now
    kekId := none
    wrappedDek := none
    dekNonce := none
    ciphertext := none
    nonce := none
    revocationReason := some reason
    revokedBy := some revokedBy }

/-- Whether a row is an active key of a tenant for a provider. -/
def KeyRow.isActive (tenantId : Uuid) (provider : Provider) (r : KeyRow) : Bool :=
  r.tenantId = tenantId ∧ r.provider = provider ∧ r.status = .active

/-- Whether a row is a given key of a tenant, and active. -/
def KeyRow.isActiveKey (tenantId keyId : Uuid) (r : KeyRow) : Bool :=
  r.tenantId = tenantId ∧ r.keyId = keyId ∧ r.status = .active

/-- The row that `create` inserts. -/
def NewKey.row (new : NewKey) (now : Time) : KeyRow where
  keyId := new.keyId
  tenantId := new.tenantId
  provider := new.provider
  label := new.label
  keyHint := new.keyHint
  status := .active
  kekId := some new.sealed.kekId
  wrappedDek := some new.sealed.wrappedDek
  dekNonce := some new.sealed.dekNonce
  ciphertext := some new.sealed.ciphertext
  nonce := some new.sealed.nonce
  createdBy := new.createdBy
  createTime := now
  revokedBy := none
  revokeTime := none
  revocationReason := none

/-- Whether a row cannot be there beside a new key: one primary key, or one place in the index
`provider_keys_one_active_per_provider`. -/
def NewKey.conflicts (new : NewKey) (r : KeyRow) : Bool :=
  r.keyId = new.keyId ∨ r.isActive new.tenantId new.provider

/-- The record of a request. -/
def DB.request (db : DB) (tenantId requestId : Uuid) : Option RequestRow :=
  db.requests.find? fun q => q.tenantId = tenantId ∧ q.requestId = requestId

/-- A key of a tenant. -/
def DB.key (db : DB) (tenantId keyId : Uuid) : Option KeyRow :=
  db.keys.find? fun r => r.tenantId = tenantId ∧ r.keyId = keyId

/-- The update of `revoke` -/
def DB.revoke (db : DB) (tenantId keyId : Uuid) (reason : RevocationReason) (revokedBy : String)
    (now : Time) : DB :=
  { db with
    keys := Table.set (KeyRow.isActiveKey tenantId keyId)
      (KeyRow.revoke reason revokedBy now) db.keys }

/-- Source: `metadata` -/
def DB.metadata (db : DB) (tenantId keyId : Uuid) : Except VaultError KeyMetadata :=
  okOr .keyNotFound ((db.key tenantId keyId).map KeyRow.metadata)

/-- Source: `fetch_sealed` -/
def DB.fetchSealed (db : DB) (tenantId : Uuid) (selector : KeySelector) :
    Except VaultError StoredSecret := do
  let row ← okOr .keyNotFound (match selector with
    | .id keyId => db.key tenantId keyId
    | .activeFor provider => db.keys.find? (KeyRow.isActive tenantId provider))
  let key := row.metadata
  ensure (key.status ≠ .revoked) .keyRevoked
  let id := key.keyId.text
  let integrity := VaultError.dataIntegrity s!"active key {id} lacks crypto material"
  let kekId ← okOr integrity row.kekId
  let wrappedDek ← okOr integrity row.wrappedDek
  let dekNonce ← okOr integrity row.dekNonce
  let ciphertext ← okOr integrity row.ciphertext
  let nonce ← okOr integrity row.nonce
  return ⟨key, ⟨kekId, wrappedDek, dekNonce, ciphertext, nonce⟩⟩

/-- Source: `list` -/
def DB.list (db : DB) (tenantId : Uuid) (includeRevoked : Bool) (limit : ℕ) : List KeyMetadata :=
  let rows := db.keys.filter fun r => r.tenantId = tenantId ∧ (includeRevoked ∨ r.status = .active)
  -- sorted by the second column first: `orderBy` keeps the order of rows with one value
  ((Table.orderBy (fun r => -r.createTime) (Table.orderBy (fun r => -r.keyId.toNat) rows)).take
    limit).map KeyRow.metadata

/-! ### Calls -/

/-- A call, and the time `now()` of its transaction. -/
inductive Call where
  | create (new : NewKey) (now : Time)
  | fetchSealed (tenantId : Uuid) (selector : KeySelector)
  | list (tenantId : Uuid) (includeRevoked : Bool) (limit : ℕ)
  | revoke (tenantId keyId : Uuid) (reason : RevocationReason) (revokedBy : String) (now : Time)
  deriving DecidableEq, Repr

inductive Reply where
  | created (r : Except VaultError Created)
  | fetched (r : Except VaultError StoredSecret)
  | listed (keys : List KeyMetadata)
  | revoked (r : Except VaultError KeyMetadata)

/-- What the transaction of `create` has written: the record of its request, and the rows it has
updated, with what the update returned. -/
structure Work where
  request : Option RequestRow := none
  revoked : List Uuid := []
  replaced : Option KeyMetadata := none
  deriving DecidableEq, Repr

/-- The statements of the transaction of `create`. -/
inductive Pc where
  /-- `INSERT INTO create_key_requests` -/
  | claim
  /-- `SELECT pg_advisory_xact_lock` -/
  | lock
  /-- `UPDATE provider_keys`, or `SELECT EXISTS` -/
  | replace
  /-- `INSERT INTO provider_keys` -/
  | insert
  /-- `UPDATE create_key_requests` -/
  | note
  | commit
  deriving DecidableEq, Repr

/-- How far a call has come: the statement that is next. -/
inductive Local where
  | tx (pc : Pc) (w : Work)
  /-- `replay_create` -/
  | replay (idem : Idempotency)
  | replayKey (keyId : Uuid) (replaced : Option Uuid)
  | replayReplaced (key : KeyMetadata) (replaced : Uuid)
  | fetch
  | select
  /-- `revoke` -/
  | update
  | metadata
  deriving DecidableEq, Repr

abbrev Thread := Call × Local

/-- The name of the advisory lock of `create`. -/
def NewKey.lockName (new : NewKey) : String :=
  let tenant := new.tenantId.text
  let provider := new.provider.asStr
  s!"provider_keys:{tenant}:{provider}"

/-- The request id that a transaction has inserted. -/
def Thread.claims : Thread → Option (Uuid × Uuid)
  | (_, .tx _ w) => w.request.map fun q => (q.tenantId, q.requestId)
  | _ => none

/-- The advisory lock that a transaction holds. -/
def Thread.locks (hash : String → BitVec 64) : Thread → Option (BitVec 64)
  | (.create new _, .tx pc _) => if pc = .claim ∨ pc = .lock then none else some (hash new.lockName)
  | _ => none

/-- The rows that a transaction has updated. -/
def Thread.updates : Thread → List Uuid
  | (_, .tx _ w) => w.revoked
  | _ => []

/-- The row that a transaction has inserted. -/
def Thread.inserts : Thread → Option KeyRow
  | (.create new now, .tx pc _) => if pc = .note ∨ pc = .commit then some (new.row now) else none
  | _ => none

/-- What `create` leaves when it commits. -/
def DB.commit (db : DB) (new : NewKey) (now : Time) (w : Work) : DB where
  keys := Table.insert (new.row now)
    (Table.set (fun r => r.keyId ∈ w.revoked) (KeyRow.revoke .rotated new.createdBy now) db.keys)
  requests := match w.request with
    | none => db.requests
    | some q => Table.insert q db.requests

section

variable (hash : String → BitVec 64) (db : DB) (others : List Thread)

/-- The next statement of the transaction of `create`. Source: `create` -/
def nextCreate (new : NewKey) (now : Time) (pc : Pc) (w : Work) : Option (Outcome DB Local Reply) :=
  match pc with
  | .claim =>
    match new.idempotency with
    | none => some (.more db (.tx .lock w))
    | some idem =>
      if (db.request new.tenantId idem.requestId).isSome then some (.more db (.replay idem))
      else if others.any fun o => o.claims = some (new.tenantId, idem.requestId) then none
      else some (.more db (.tx .lock { w with
        request := some ⟨new.tenantId, idem.requestId, idem.fingerprint, new.keyId, none, now⟩ }))
  | .lock =>
    if others.any fun o => o.locks hash = some (hash new.lockName) then none
    else some (.more db (.tx .replace w))
  | .replace =>
    let rows := db.keys.filter (KeyRow.isActive new.tenantId new.provider)
    if new.replaceActive then
      if rows.any fun r => others.any fun o => r.keyId ∈ o.updates then none
      else some (.more db (.tx .insert { w with
        revoked := rows.map KeyRow.keyId
        replaced := rows.head?.map fun r => (r.revoke .rotated new.createdBy now).metadata }))
    else if rows ≠ [] then some (.done db (.created (.error .activeKeyExists)))
    else some (.more db (.tx .insert w))
  | .insert =>
    if others.any fun o => o.inserts.any new.conflicts then none
    -- a row that the transaction itself has revoked is no longer in the index
    else if db.keys.any fun r => r.keyId = new.keyId ∨ (new.conflicts r ∧ r.keyId ∉ w.revoked) then
      some (.done db (.created (.error .activeKeyExists)))
    else some (.more db (.tx .note w))
  | .note =>
    some (.more db (.tx .commit { w with
      request := w.request.map fun q =>
        { q with replacedKeyId := w.replaced.map KeyMetadata.keyId } }))
  | .commit =>
    some (.done (db.commit new now w)
      (.created (.ok ⟨(new.row now).metadata, w.replaced, false⟩)))

/-- The next statement of a call. -/
def next : Call → Local → Option (Outcome DB Local Reply)
  | .create new now, .tx pc w => nextCreate hash db others new now pc w
  | .create new _, .replay idem =>
    match db.request new.tenantId idem.requestId with
    | none => some (.done db (.created (.error (.dataIntegrity "idempotency record vanished"))))
    | some q =>
      if q.payloadFingerprint ≠ idem.fingerprint then
        some (.done db (.created (.error .requestIdConflict)))
      else some (.more db (.replayKey q.keyId q.replacedKeyId))
  | .create new _, .replayKey keyId replaced =>
    match db.metadata new.tenantId keyId, replaced with
    | .error e, _ => some (.done db (.created (.error e)))
    | .ok key, none => some (.done db (.created (.ok ⟨key, none, true⟩)))
    | .ok key, some id => some (.more db (.replayReplaced key id))
  | .create new _, .replayReplaced key id =>
    match db.metadata new.tenantId id with
    | .error e => some (.done db (.created (.error e)))
    | .ok old => some (.done db (.created (.ok ⟨key, some old, true⟩)))
  | .fetchSealed tenantId selector, .fetch =>
    some (.done db (.fetched (db.fetchSealed tenantId selector)))
  | .list tenantId includeRevoked limit, .select =>
    some (.done db (.listed (db.list tenantId includeRevoked limit)))
  | .revoke tenantId keyId reason revokedBy now, .update =>
    match db.keys.find? (KeyRow.isActiveKey tenantId keyId) with
    | none => some (.more db .metadata)
    | some r =>
      if others.any fun o => keyId ∈ o.updates then none
      else some (.done (db.revoke tenantId keyId reason revokedBy now)
        (.revoked (.ok (r.revoke reason revokedBy now).metadata)))
  | .revoke tenantId keyId _ _ _, .metadata =>
    some (.done db (.revoked (db.metadata tenantId keyId)))
  | _, _ => none

end

/-- The key store. -/
def keyStore (hash : String → BitVec 64) : System DB Call Local Reply Unit Empty where
  enter
    | .create _ _ => .tx .claim {}
    | .fetchSealed _ _ => .fetch
    | .list _ _ _ => .select
    | .revoke _ _ _ _ _ => .update
  next db c t others _ := next hash db others c t
  env e _ := nomatch e

end Jarvis.Vault
