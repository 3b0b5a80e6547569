import Jarvis.Orchestrator.Types

/-!
# The way to the devices

Requests to a user's computer and what its daemon (`mac-daemon`) does with them: refuse, ask for an
approval, or start the command. Each device keeps the approvals it has issued and not yet redeemed;
redeeming removes one, whatever comes of it (`approval.rs` `redeem`). `Net.started` is the history
of which approvals a command was started with.

The environment decides when a request arrives and how the device's configuration and clock judge
it (`Handling`); `Net.handle` is what follows.
-/

namespace Jarvis.Orchestrator

/-- Source: `service.rs` `DeviceError` -/
inductive DeviceError where
  | invalidArgument (detail : String)
  | unauthenticated
  | callerNotAllowed
  | peerNotAllowed
  | commandDenied
  | workingDirectoryNotAllowed
  | approvalInvalid (detail : String)
  | approvalExpired
  | noApprovers
  | tooManyCommands
  | tooManyPendingApprovals
  | internal
  deriving DecidableEq, Repr

namespace DeviceError

/-- Source: `service.rs` `code` -/
def code : DeviceError → Code
  | invalidArgument _ => .invalidArgument
  | unauthenticated => .unauthenticated
  | callerNotAllowed | peerNotAllowed | commandDenied | workingDirectoryNotAllowed
  | approvalInvalid _ => .permissionDenied
  | approvalExpired | noApprovers => .failedPrecondition
  | tooManyCommands | tooManyPendingApprovals => .resourceExhausted
  | internal => .internal

/-- Source: `service.rs` `DeviceError` (the `#[error]` texts) -/
def message : DeviceError → String
  | invalidArgument detail => detail
  | unauthenticated => "caller identity could not be established from the client certificate"
  | callerNotAllowed => "caller is not allowed to call this method"
  | peerNotAllowed => "connection does not come from an allowed network"
  | commandDenied => "program is on the device's deny list"
  | workingDirectoryNotAllowed =>
    "working directory is outside the workspace roots or inside a protected path"
  | approvalInvalid detail => "approval is invalid: " ++ detail
  | approvalExpired => "approval is unknown, already used or expired"
  | noApprovers => "command needs approval but no approvers are configured"
  | tooManyCommands => "the device is already running its maximum number of commands"
  | tooManyPendingApprovals => "too many approvals are waiting for a signature"
  | internal => "internal error"

/-- The status a caller gets. Source: `service.rs` `From<DeviceError> for Status` -/
def status (e : DeviceError) : Status := ⟨e.code, e.message⟩

end DeviceError

/-- What became of a request. -/
inductive Delivery where
  | inTransit
  | lost
  | answered (r : Except Status DeviceResponse)

/-- A request to a device. Source: `execute.go` `execDevice` -/
structure Message where
  device : UUID
  command : Command
  approval : Option Approval
  delivery : Delivery

/-- Requests and devices. Approvals are named by their device and id. -/
structure Net where
  /-- Every request sent; its id is its place. -/
  messages : List Message := []
  /-- The approvals ever issued. -/
  issued : List (UUID × String) := []
  /-- The approvals issued and not yet redeemed. Source: `approval.rs` `PendingApprovals` -/
  pending : List (UUID × String) := []
  /-- The approvals with which a command was started. -/
  started : List (UUID × String) := []

/-- How a redeemed approval is judged. Source: `approval.rs` `redeem` -/
inductive Redeem where
  | expired
  | invalid (detail : String)
  | valid
  deriving DecidableEq, Repr

/-- How a device's configuration and clock judge a request. Source: `service.rs` `handle_execute` -/
inductive Handling where
  /-- It is refused before its approval is looked at. -/
  | refuse (e : DeviceError)
  /-- It needs an approval and has none. -/
  | issue (r : ApprovalRequired)
  /-- It needs no approval. `none`: the executor fails. -/
  | allow (result : Option CommandResult)
  /-- It needs an approval and has one. -/
  | redeem (check : Redeem) (result : Option CommandResult)

/-- The answer to a command that was started. -/
def ran : Option CommandResult → Except Status DeviceResponse
  | some r => .ok (.result r)
  | none => .error DeviceError.internal.status

instance instLawfulBEqName : LawfulBEq (UUID × String) := inferInstance

namespace Net

/-- Send a request. -/
def send (device : UUID) (command : Command) (approval : Option Approval) (net : Net) : ℕ × Net :=
  (net.messages.length,
    { net with messages := net.messages ++ [⟨device, command, approval, .inTransit⟩] })

/-- What a device answers, and what it remembers; `none` if the request cannot be judged so.
Source: `service.rs` `handle_execute` -/
def handle (m : Message) (net : Net) : Handling → Option (Except Status DeviceResponse × Net)
  | .refuse e =>
    match e, m.approval with
    | .approvalInvalid _, _ | .approvalExpired, _ => none
    | .noApprovers, some _ | .tooManyPendingApprovals, some _ => none
    | e, _ => some (.error e.status, net)
  | .issue r =>
    if m.approval = none ∧ (m.device, r.approvalID) ∉ net.issued then
      some (.ok (.approvalRequired r), { net with
        issued := (m.device, r.approvalID) :: net.issued
        pending := (m.device, r.approvalID) :: net.pending })
    else none
  | .allow result =>
    some (ran result, { net with
      started := (m.approval.map fun a => (m.device, a.approvalID)).toList ++ net.started })
  | .redeem check result =>
    match m.approval with
    | none => none
    | some a =>
      if (m.device, a.approvalID) ∈ net.pending then
        let net := { net with pending := net.pending.filter (· ≠ (m.device, a.approvalID)) }
        match check with
        | .expired => some (.error DeviceError.approvalExpired.status, net)
        | .invalid detail => some (.error (DeviceError.approvalInvalid detail).status, net)
        | .valid => some (ran result, { net with
            started := (m.device, a.approvalID) :: net.started })
      else some (.error DeviceError.approvalExpired.status, net)

/-- What became of a request changes. -/
def setDelivery (id : ℕ) (m : Message) (d : Delivery) (net : Net) : Net :=
  { net with messages := net.messages.set id { m with delivery := d } }

/-- A request in transit. -/
def inTransit (net : Net) (id : ℕ) : Option Message :=
  match net.messages[id]? with
  | some m =>
    match m.delivery with
    | .inTransit => some m
    | _ => none
  | none => none

/-- A request arrives at its device. -/
def deliver (id : ℕ) (h : Handling) (net : Net) : Option Net :=
  (net.inTransit id).bind fun m =>
    (net.handle m h).map fun rn => rn.2.setDelivery id m (.answered rn.1)

/-- A request is lost. -/
def lose (id : ℕ) (net : Net) : Option Net :=
  (net.inTransit id).map fun m => net.setDelivery id m .lost

/-- A daemon restarts: its outstanding approvals are void. -/
def restart (device : UUID) (net : Net) : Net :=
  { net with pending := net.pending.filter (·.1 ≠ device) }

/-- The answer to a request, once there is one. -/
def answer (net : Net) (id : ℕ) : Option (Except Status DeviceResponse) :=
  match net.messages[id]? with
  | some m =>
    match m.delivery with
    | .answered r => some r
    | _ => none
  | none => none

end Net

end Jarvis.Orchestrator
