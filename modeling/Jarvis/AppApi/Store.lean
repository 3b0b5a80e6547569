import Jarvis.Table
import Jarvis.Transact

/-!
# The app API's store

Pairing codes and app sessions, and the transactions on them. Sources: `app-api/internal/store`
(`store.go`, `0001_init.sql`).

`now()` is the time at which the transaction began, and the row locks a transaction takes are held
until it commits: its statements take effect together (`Jarvis.Transact`). A statement that a
constraint refuses rolls its transaction back. Codes and refresh tokens are stored as SHA-256
hashes; different secrets have different hashes, so a hash stands for its secret. Push tokens, and
the functions that only list sessions, are left out.
-/

namespace Jarvis.AppApi

open Table Transact

/-- A UUID. -/
abbrev UUID := ℕ

/-- A point in time, or a length of time. -/
abbrev Time := ℤ

/-- The SHA-256 of a pairing code or of a refresh token. -/
abbrev Hash := ℕ

/-- Source: `0001_init.sql` `pairing_codes` -/
structure PairingCode where
  codeHash : Hash
  tenantID : UUID
  userID : String
  expiresAt : Time
  redeemedAt : Option Time
  sessionID : Option UUID
  createdAt : Time
  deriving DecidableEq, Repr

/-- A row of the table of sessions. Source: `0001_init.sql` `sessions` -/
structure SessionRow where
  id : UUID
  tenantID : UUID
  userID : String
  deviceName : String
  deviceModel : String
  refreshHash : Hash
  previousHash : Option Hash
  rotatedAt : Option Time
  refreshExpiresAt : Time
  createdAt : Time
  lastUsedAt : Time
  revokedAt : Option Time
  revokeReason : Option String
  deriving DecidableEq, Repr

/-- A paired app. Source: `store.go` `Session` -/
structure Session where
  id : UUID
  tenantID : UUID
  userID : String
  deviceName : String
  deviceModel : String
  refreshExpiresAt : Time
  createdAt : Time
  lastUsedAt : Time
  revokedAt : Option Time
  deriving DecidableEq, Repr

/-- Source: `store.go` `scanSession` -/
def scanSession (r : SessionRow) : Session :=
  ⟨r.id, r.tenantID, r.userID, r.deviceName, r.deviceModel, r.refreshExpiresAt, r.createdAt,
    r.lastUsedAt, r.revokedAt⟩

/-- A session about to be created. Source: `store.go` `NewSession` -/
structure NewSession where
  id : UUID
  deviceName : String
  deviceModel : String
  refreshHash : Hash
  refreshExpiresAt : Time
  deriving DecidableEq, Repr

/-- What a refresh did. Source: `store.go` `RefreshOutcome` -/
inductive RefreshOutcome where
  | rotated
  | retried
  | reused
  deriving DecidableEq, Repr

def reasonSignedOut : String := "signed out"

def reasonReused : String := "refresh token reused"

/-- The two tables. -/
structure DB where
  codes : List PairingCode
  sessions : List SessionRow
  deriving DecidableEq, Repr

/-- What a function of the store returns. -/
inductive Reply where
  /-- `ErrNotFound` -/
  | notFound
  /-- Another error: a constraint was violated. -/
  | failed
  /-- No error. -/
  | done
  | paired (s : Session)
  | refreshed (s : Session) (o : RefreshOutcome)
  | signedOut (s : Option Session)
  | revoked (one : Bool)
  | purged (total : ℕ)
  deriving DecidableEq, Repr

/-- The constraints of the table of sessions: `PRIMARY KEY (id)`, `UNIQUE (refresh_hash)`,
`UNIQUE (previous_hash)`. -/
def Unique (rows : List SessionRow) : Prop :=
  Keyed (·.id) rows ∧ Keyed (·.refreshHash) rows ∧ (rows.filterMap (·.previousHash)).Nodup

instance (rows : List SessionRow) : Decidable (Unique rows) := by
  unfold Unique Keyed
  infer_instance

/-- Source: `store.go` `CreatePairingCode` -/
def createPairingCode (now : Time) (codeHash : Hash) (tenant : UUID) (user : String)
    (expires : Time) (db : DB) : Reply × DB :=
  match row PairingCode.codeHash codeHash db.codes with
  | some _ => (.failed, db)
  | none =>
    (.done, { db with
      codes := Table.insert ⟨codeHash, tenant, user, expires, none, none, now⟩ db.codes })

/-- Whether a code can be redeemed: `redeemed_at IS NULL AND expires_at > now()`. -/
def PairingCode.redeemable (now : Time) (p : PairingCode) : Bool :=
  p.redeemedAt.isNone && now < p.expiresAt

/-- The row of a new session. -/
def NewSession.row (now : Time) (tenant : UUID) (user : String) (n : NewSession) : SessionRow where
  id := n.id
  tenantID := tenant
  userID := user
  deviceName := n.deviceName
  deviceModel := n.deviceModel
  refreshHash := n.refreshHash
  previousHash := none
  rotatedAt := none
  refreshExpiresAt := n.refreshExpiresAt
  createdAt := now
  lastUsedAt := now
  revokedAt := none
  revokeReason := none

/-- Source: `store.go` `RedeemPairingCode` -/
def redeemPairingCode (now : Time) (codeHash : Hash) (n : NewSession) (db : DB) : Reply × DB :=
  let due := fun p : PairingCode => decide (p.codeHash = codeHash) && p.redeemable now
  match db.codes.find? due with
  | none => (.notFound, db)
  | some p =>
    let s := n.row now p.tenantID p.userID
    if Unique (Table.insert s db.sessions) then
      (.paired (scanSession s),
        { codes := set due (fun p => { p with redeemedAt := some now, sessionID := some n.id })
            db.codes
          sessions := Table.insert s db.sessions })
    else (.failed, db)

/-- Whether a token is one of the two a session knows. -/
def SessionRow.knows (presented : Hash) (s : SessionRow) : Bool :=
  s.refreshHash = presented || s.previousHash = some presented

/-- `revoked_at IS NULL AND refresh_expires_at > now()` -/
def SessionRow.live (now : Time) (s : SessionRow) : Bool :=
  s.revokedAt.isNone && now < s.refreshExpiresAt

/-- `COALESCE(rotated_at > now() - grace, false)` -/
def SessionRow.inGrace (now grace : Time) (s : SessionRow) : Bool :=
  s.rotatedAt.any fun t => now - grace < t

/-- The current token rotates. -/
def SessionRow.rotate (now : Time) (next : Hash) (idleTTL : Time) (s : SessionRow) : SessionRow :=
  { s with
    previousHash := some s.refreshHash
    refreshHash := next
    rotatedAt := some now
    refreshExpiresAt := now + idleTTL
    lastUsedAt := now }

/-- The token the app never received is dropped; `rotated_at` stays, so the grace period does not
extend. -/
def SessionRow.retry (now : Time) (next : Hash) (s : SessionRow) : SessionRow :=
  { s with
    refreshHash := next
    lastUsedAt := now }

/-- The session ends. -/
def SessionRow.revoke (now : Time) (reason : String) (s : SessionRow) : SessionRow :=
  { s with
    revokedAt := some now
    revokeReason := some reason }

/-- `UPDATE sessions SET f WHERE id = id` -/
def DB.setSession (id : UUID) (f : SessionRow → SessionRow) (db : DB) : DB :=
  { db with sessions := set (fun r => decide (r.id = id)) f db.sessions }

/-- The update of the row `s` that `Refresh` has locked. -/
def update (s : SessionRow) (f : SessionRow → SessionRow) (o : RefreshOutcome) (db : DB) :
    Reply × DB :=
  if Unique (db.setSession s.id f).sessions then
    (.refreshed (scanSession (f s)) o, db.setSession s.id f)
  else (.failed, db)

/-- Source: `store.go` `Refresh` -/
def refresh (now : Time) (presented next : Hash) (idleTTL grace : Time) (db : DB) : Reply × DB :=
  match db.sessions.find? fun s => s.knows presented && s.live now with
  | none => (.notFound, db)
  | some s =>
    if s.refreshHash = presented then update s (·.rotate now next idleTTL) .rotated db
    else if s.inGrace now grace then update s (·.retry now next) .retried db
    else update s (·.revoke now reasonReused) .reused db

/-- Source: `store.go` `SignOut` -/
def signOut (now : Time) (presented : Hash) (db : DB) : Reply × DB :=
  let open_ := fun s : SessionRow => s.knows presented && s.revokedAt.isNone
  (.signedOut ((returning open_ (·.revoke now reasonSignedOut) db.sessions).head?.map scanSession),
    { db with sessions := set open_ (·.revoke now reasonSignedOut) db.sessions })

/-- Source: `store.go` `Revoke` -/
def revoke (now : Time) (tenant : UUID) (user : String) (id : UUID) (reason : String) (db : DB) :
    Reply × DB :=
  let own := fun s : SessionRow =>
    s.id = id && s.tenantID = tenant && s.userID = user && s.revokedAt.isNone
  (.revoked (db.sessions.countP own = 1),
    { db with sessions := set own (·.revoke now reason) db.sessions })

/-- Rows that came to match after a `DELETE` began are not in its snapshot: it deletes some of the
rows that match. `unseen` and `unseenCodes` name those it does not see.
Source: `store.go` `Purge` -/
def purge (now keep : Time) (unseenCodes : List Hash) (unseen : List UUID) (db : DB) : Reply × DB :=
  let oldCode := fun p : PairingCode =>
    p.expiresAt < now - keep && decide (p.codeHash ∉ unseenCodes)
  let old := fun s : SessionRow =>
    s.revokedAt.getD s.refreshExpiresAt < now - keep && decide (s.id ∉ unseen)
  (.purged (db.codes.countP oldCode + db.sessions.countP old),
    { codes := delete oldCode db.codes
      sessions := delete old db.sessions })

/-- A call of the store. -/
inductive Op where
  | createPairingCode (codeHash : Hash) (tenant : UUID) (user : String) (expires : Time)
  | redeemPairingCode (codeHash : Hash) (n : NewSession)
  | refresh (presented next : Hash) (idleTTL grace : Time)
  | signOut (presented : Hash)
  | revoke (tenant : UUID) (user : String) (id : UUID) (reason : String)
  | purge (keep : Time) (unseenCodes : List Hash) (unseen : List UUID)
  deriving DecidableEq, Repr

/-- Runs a call, as a transaction that began at `now`. -/
def exec (op : Op) (now : Time) (db : DB) : Reply × DB :=
  match op with
  | .createPairingCode codeHash tenant user expires =>
    AppApi.createPairingCode now codeHash tenant user expires db
  | .redeemPairingCode codeHash n => AppApi.redeemPairingCode now codeHash n db
  | .refresh presented next idleTTL grace => AppApi.refresh now presented next idleTTL grace db
  | .signOut presented => AppApi.signOut now presented db
  | .revoke tenant user id reason => AppApi.revoke now tenant user id reason db
  | .purge keep unseenCodes unseen => AppApi.purge now keep unseenCodes unseen db

/-- What a call draws at random. -/
inductive Name where
  | code (h : Hash)
  | token (h : Hash)
  | session (id : UUID)
  deriving DecidableEq, Repr

/-- Sources: `service.go` `RedeemPairingCode` (`uuid.New`, `NewRefreshToken`) and `RefreshSession`
(`NewRefreshToken`) -/
def drawn : Op → List Name
  | .createPairingCode codeHash _ _ _ => [.code codeHash]
  | .redeemPairingCode _ n => [.session n.id, .token n.refreshHash]
  | .refresh _ next _ _ => [.token next]
  | _ => []

/-- The store with its clients. -/
abbrev Config := Transact.Config DB Op Reply Name

/-- A call that took effect. -/
abbrev Commit := Transact.Commit DB Op Reply

/-- The store after `acts`, from empty tables. -/
def reached (clock : Time) (acts : List (Act Op)) : Option Config :=
  run exec drawn (.init ⟨[], []⟩ clock) acts

end Jarvis.AppApi
