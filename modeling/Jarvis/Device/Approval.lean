import Jarvis.Bytes
import Jarvis.Fallible

/-!
# The Mac daemon: approvals

The approvals that have been issued and not yet redeemed, and what redeeming one checks. Source:
`daemons/mac-daemon/src/approval.rs`. SHA-256, ECDSA, the encoding of the payload and how a path is
displayed are parameters. Times are in nanoseconds, on the monotonic clock (`Instant`) and on the
other (`SystemTime`).
-/

namespace Jarvis.Device

/-- Rust's `PathBuf`: the bytes of its `OsStr`. -/
structure Path where
  bytes : Bytes
  deriving DecidableEq, Repr

def Path.ofString (s : String) : Path := ⟨utf8 s⟩

/-- Source: `policy.rs` `Grants` -/
structure Grants where
  writable : Bool := false
  network : Bool := false
  systemServices : Bool := false
  deriving DecidableEq, Repr

/-- Source: `CommandSpec` -/
structure CommandSpec where
  program : Path
  args : List String
  workingDir : Path
  /-- In nanoseconds. -/
  timeout : ℕ
  grants : Grants
  deriving DecidableEq, Repr

/-- The message `ApprovalPayload`. -/
structure ApprovalPayload where
  approvalId : String
  deviceName : String
  program : String
  args : List String
  workingDirectory : String
  timeout : Option ℕ
  sandbox : Option Grants
  issueTime : ℤ
  expireTime : ℤ
  deriving DecidableEq, Repr

/-- The message `Approval`. -/
structure Approval where
  approvalId : String
  approverId : String
  signature : Bytes
  deriving DecidableEq, Repr

/-- What the daemon takes from libraries. -/
structure Library where
  Key : Type
  sha256 : Bytes → Fixed 32
  /-- `Signature::from_slice` and `VerifyingKey::verify` -/
  verify : Key → Bytes → Bytes → Bool
  display : Path → String
  encode : ApprovalPayload → Bytes

/-- Bytes, with their number in front. Source: the function `field` in `fingerprint` -/
def field (bytes : Bytes) : Bytes := Encoding.bigEndian 8 bytes.length ++ bytes

def flag (b : Bool) : UInt8 := if b then 1 else 0

/-- What the fingerprint of a command hashes. -/
def CommandSpec.encoded (spec : CommandSpec) : Bytes :=
  field spec.program.bytes ++ Encoding.bigEndian 8 spec.args.length ++
    spec.args.flatMap (fun arg => field (utf8 arg)) ++ field spec.workingDir.bytes ++
    Encoding.bigEndian 16 (spec.timeout / 1000000) ++
    [flag spec.grants.writable, flag spec.grants.network, flag spec.grants.systemServices]

section

variable (lib : Library)

/-- Source: `fingerprint` -/
def CommandSpec.fingerprint (spec : CommandSpec) : Fixed 32 := lib.sha256 spec.encoded

/-- Source: `Approvers` -/
abbrev Approvers := List (String × lib.Key)

def signatureContext : Bytes := utf8 "jarvis.device.v1.ApprovalPayload\x00"

/-- Source: `signed_message` -/
def signedMessage (payload : Bytes) : Bytes := signatureContext ++ payload

/-- Source: `verify` -/
def verify (approvers : Approvers lib) (approverId : String) (payload signature : Bytes) : Bool :=
  match approvers.lookup approverId with
  | none => false
  | some key => lib.verify key (signedMessage payload) signature

end

/-- Source: `ApprovalError` -/
inductive ApprovalError where
  | tooManyPending
  | expired
  | invalid (detail : String)
  deriving DecidableEq, Repr

/-- Source: `Issued` -/
structure Issued where
  approvalId : String
  payload : Bytes
  expireTime : ℤ
  deriving DecidableEq, Repr

/-- Source: `Pending` -/
structure Pending where
  fingerprint : Fixed 32
  payload : Bytes
  expiresAt : ℤ
  deriving DecidableEq

/-- Source: the entries of `PendingApprovals` -/
abbrev Entries := List (String × Pending)

/-- `HashMap::insert` -/
def Entries.insert (id : String) (pending : Pending) (entries : Entries) : Entries :=
  (id, pending) :: entries.filter fun e => e.1 ≠ id

/-- `HashMap::remove`, without what it returns -/
def Entries.remove (id : String) (entries : Entries) : Entries := entries.filter fun e => e.1 ≠ id

/-- What `issue` and `redeem` take from outside: the clocks, and a random UUID. -/
structure Moment where
  now : ℤ
  systemNow : ℤ
  uuid : String
  deriving DecidableEq, Repr

section

variable (lib : Library)

/-- Source: `retain` in `issue` -/
def Entries.unexpired (now : ℤ) (entries : Entries) : Entries :=
  entries.filter fun e => now < e.2.expiresAt

/-- The seconds of a `prost_types::Duration` are an `i64`. Source: `Duration::try_from(_).ok()` -/
def protoDuration (nanos : ℕ) : Option ℕ := if nanos / 1000000000 < 2 ^ 63 then some nanos else none

/-- The payload that `issue` makes. -/
def payloadFor (ttl : ℕ) (deviceName : String) (spec : CommandSpec) (at' : Moment) :
    ApprovalPayload where
  approvalId := at'.uuid
  deviceName := deviceName
  program := lib.display spec.program
  args := spec.args
  workingDirectory := lib.display spec.workingDir
  timeout := protoDuration spec.timeout
  sandbox := some spec.grants
  issueTime := at'.systemNow
  expireTime := at'.systemNow + ttl

/-- What is remembered of the approval that `issue` makes. -/
def pendingFor (ttl : ℕ) (deviceName : String) (spec : CommandSpec) (at' : Moment) : Pending where
  fingerprint := spec.fingerprint lib
  payload := lib.encode (payloadFor lib ttl deviceName spec at')
  expiresAt := at'.now + ttl

/-- Source: `issue` -/
def issue (ttl capacity : ℕ) (deviceName : String) (spec : CommandSpec) (at' : Moment)
    (entries : Entries) : Except ApprovalError Issued × Entries :=
  let entries := entries.unexpired at'.now
  if capacity ≤ entries.length then (.error .tooManyPending, entries)
  else
    let pending := pendingFor lib ttl deviceName spec at'
    (.ok ⟨at'.uuid, pending.payload, at'.systemNow + ttl⟩, entries.insert at'.uuid pending)

/-- Source: `redeem` -/
def redeem (approvers : Approvers lib) (approval : Approval) (spec : CommandSpec) (now : ℤ)
    (entries : Entries) : Except ApprovalError String × Entries :=
  match entries.lookup approval.approvalId with
  | none => (.error .expired, entries)
  | some pending =>
    let entries := entries.remove approval.approvalId
    if pending.expiresAt ≤ now then (.error .expired, entries)
    else if pending.fingerprint ≠ spec.fingerprint lib then
      (.error (.invalid "it was issued for a different command"), entries)
    else if !verify lib approvers approval.approverId pending.payload approval.signature then
      (.error (.invalid "signature does not verify for that approver"), entries)
    else (.ok approval.approverId, entries)

end

/-! ### The entries -/

variable {lib : Library}

variable {entries : Entries} {e : String × Pending} {approvers : Approvers lib}
  {approval : Approval} {spec : CommandSpec} {now : ℤ}

theorem mem_insert {id : String} (h : e ∈ entries.insert id pending) :
    e = (id, pending) ∨ (e ∈ entries ∧ e.1 ≠ id) := by
  rcases List.mem_cons.mp h with rfl | h
  · exact .inl rfl
  · obtain ⟨hmem, hne⟩ := List.mem_filter.mp h
    exact .inr ⟨hmem, of_decide_eq_true hne⟩

/-- What is left after an attempt to redeem an approval. -/
theorem mem_redeem (h : e ∈ (redeem lib approvers approval spec now entries).2) :
    e ∈ entries ∧ e.1 ≠ approval.approvalId := by
  have hremove : ∀ {e}, e ∈ entries.remove approval.approvalId →
      e ∈ entries ∧ e.1 ≠ approval.approvalId := by
    intro e he
    obtain ⟨hmem, hne⟩ := List.mem_filter.mp he
    exact ⟨hmem, of_decide_eq_true hne⟩
  rw [redeem] at h
  split at h
  next hnone =>
    refine ⟨h, fun heq => ?_⟩
    have := List.lookup_eq_none_iff.mp hnone e h
    simp [heq] at this
  next pending hsome =>
    dsimp only at h
    split_ifs at h <;> exact hremove h

/-- An approval is redeemed if it is stored, has not expired, is for this command and is signed. -/
theorem redeem_eq_ok (h : (redeem lib approvers approval spec now entries).1 = .ok approver) :
    approver = approval.approverId ∧ ∃ pending, (approval.approvalId, pending) ∈ entries ∧
      now < pending.expiresAt ∧ pending.fingerprint = spec.fingerprint lib ∧
      verify lib approvers approval.approverId pending.payload approval.signature = true := by
  rw [redeem] at h
  split at h
  next => cases h
  next pending hsome =>
    dsimp only at h
    split_ifs at h with hexpired hfingerprint hverify
    obtain ⟨l₁, l₂, rfl, -⟩ := List.lookup_eq_some_iff.mp hsome
    exact ⟨(Except.ok.inj h).symm, pending, by simp, not_le.mp hexpired, not_not.mp hfingerprint,
      by simpa using hverify⟩

end Jarvis.Device
