import Jarvis.Audit.Server
import Jarvis.Orchestrator.Audited

/-!
# The engine's events at the audit service

The orchestrator checks the owners and the device names it is given; the audit service checks the
events it is sent. The two checks are not the same: the first lets a space into a user id, letters
of any script and spaces into the name of a device, and any program. `audit_accepts`: which events
are accepted for all that. `refused_spaceInName`: a command that ran on a device whose name has a
space is refused.
-/

namespace Jarvis.Orchestrator

open Engine

variable {P : Params}

/-! ### What the orchestrator lets in -/

/-- Source: `server.go` `printable`. A byte of the range is a character of its own. -/
def printable (s : String) (low high : ℕ) : Bool :=
  low ≤ s.utf8ByteSize ∧ s.utf8ByteSize ≤ high ∧ s.toList.all fun c => ' ' ≤ c ∧ c ≤ '~'

/-- Source: `server.go` `parseOwner` -/
def parseOwner (P : Params) (tenant user : String) : Except String (UUID × String) := do
  let id ← okOr "tenant_id must be a canonical lowercase UUID" (P.parseUUID tenant)
  ensure (id ≠ 0 ∧ P.uuidText id = tenant) "tenant_id must be a canonical lowercase UUID"
  ensure (printable user 1 128 = true) "user_id must be 1 to 128 printable ASCII characters"
  pure (id, user)

/-- The characters of the classes `\p{L}` and `\p{N}`. -/
structure Letters where
  mem : Char → Bool
  not_control : ∀ c, mem c = true → Audit.isControl c = false

/-- Source: `server.go` `deviceName` -/
def deviceName (L : Letters) (s : String) : Bool :=
  match s.toList with
  | [] => false
  | c :: cs =>
    L.mem c && decide (cs.length ≤ 63) && cs.all fun c => L.mem c || c ∈ [' ', '.', '_', '\'', '-']

/-- Source: `server.go` `RegisterDevice` (the name) -/
def checkName (L : Letters) (given : String) : Except String String := do
  let name := trimSpace given
  ensure (deviceName L name = true ∧ name.length ≤ 64)
    "name must be 1 to 64 letters, digits, spaces or ._'-"
  pure name

/-- The device and the program of an event are ones that were let in: the name of the device by
`RegisterDevice`, the program by `runDevice`. -/
def Audited.LetIn (L : Letters) : Audited → Prop
  | .commandRan device program .. | .approvalRequested _ device program =>
    (∃ given, checkName L given = .ok device) ∧ program ≠ ""
  | _ => True

/-! ### What is sent -/

/-- Where an event is recorded. -/
inductive Origin where
  /-- In a call, with the values of its `x-request-id`. -/
  | rpc (values : List String) (fresh : UUID)
  | task (id : UUID)
  | memory (id : UUID)
  | background
  deriving DecidableEq, Repr

/-- Source: `interceptor.go` `requestIDPattern` -/
def requestIDPattern (s : String) : Bool :=
  1 ≤ s.length ∧ s.length ≤ 128 ∧ s.toList.all fun c => c.isAlphanum || c ∈ ['.', '_', ':', '-']

/-- Source: `interceptor.go` `incomingRequestID` -/
def incomingRequestID (P : Params) (values : List String) (fresh : UUID) : String :=
  match values with
  | [v] => if requestIDPattern v then v else P.uuidText fresh
  | _ => P.uuidText fresh

/-- Source: `engine.go` `requestID` -/
def Origin.requestID (P : Params) : Origin → String
  | .rpc values fresh => incomingRequestID P values fresh
  | .task id => "task-" ++ P.uuidText id
  | .memory id => "memory-" ++ P.uuidText id
  | .background => ""

/-- Source: `auditlog.go` `User`, `Assistant`, `Device` -/
def Actor.kind : Actor → Audit.ActorKind
  | .assistant => .assistant
  | .user _ => .user
  | .device _ => .device

def Actor.id : Actor → String
  | .assistant => "jarvis"
  | .user id => id
  | .device name => name

def Outcome.sent : Outcome → Audit.Outcome
  | .success => .success
  | .failure => .failure
  | .denied => .denied

/-- Source: `audit.go` `audit`, `auditlog.go` `Record` -/
def AuditEvent.sent (P : Params) (eventId requestId : String) (occur : Audit.ProtoTime)
    (e : AuditEvent) : Audit.Sent :=
  ⟨eventId, P.uuidText e.tenant, some occur, e.actor.kind, e.actor.id, e.user, e.action,
    e.targetType,
    e.targetID, e.outcome.sent, e.reason, requestId, .ofList e.details⟩

/-- The delivery of an event: its id, its time, and the clock and the libraries of the audit
service. An id is 36 characters, and is read back. -/
structure AuditDelivery (P : Params) where
  eventId : String
  occur : Audit.ProtoTime
  parse : String → Option Audit.UUID
  now : ℤ
  parse_eventId : (parse eventId).isSome
  parse_uuidText : ∀ id, (parse (P.uuidText id)).isSome
  uuidText_size : ∀ id, (P.uuidText id).utf8ByteSize = 36
  uuidText_printable : ∀ id, Audit.printable (P.uuidText id) = true
  valid : occur.valid
  clock : (occur.truncate valid).micros * 1000 ≤ now + Audit.maxClockSkew

/-- What the audit service makes of an event. -/
def AuditDelivery.received (D : AuditDelivery P) (i : ℕ) (origin : Origin) (e : AuditEvent) :
    Except String Audit.Event :=
  Audit.event D.parse D.now i (e.sent P D.eventId (origin.requestID P) D.occur)

/-! ### Which texts fit -/

/-- A text the audit service takes in a field of so many characters. -/
def Fits (s : String) (max : ℕ) : Prop := s.utf8ByteSize ≤ max ∧ Audit.printable s = true

instance (s : String) (max : ℕ) : Decidable (Fits s max) := inferInstanceAs (Decidable (_ ∧ _))

theorem utf8Len_takeBytes_le (n : ℕ) (cs : List Char) : String.utf8Len (takeBytes n cs) ≤ n := by
  induction cs generalizing n with
  | nil => exact Nat.zero_le n
  | cons c cs ih =>
    unfold takeBytes
    split_ifs with h
    · have := ih (n - c.utf8Size)
      rw [String.utf8Len_cons]
      omega
    · exact Nat.zero_le n

/-- A text cut to `n` bytes has at most `n` characters. -/
theorem length_truncate_le (s : String) (n : ℕ) : (truncate s n).length ≤ n := by
  refine (length_le_utf8ByteSize _).trans ?_
  unfold truncate
  split_ifs with h
  · exact h
  · rw [← String.utf8Len_toList, String.toList_ofList]
    exact utf8Len_takeBytes_le n _

variable {s tenant user given name : String} {owner : UUID × String} {L : Letters} {m n : ℕ}
  {x : Audited}

theorem printable_iff :
    Audit.printable s = true ↔ ∀ c ∈ s.toList, '!' ≤ c ∧ c ≤ '~' := by
  simp [Audit.printable]

theorem detailValue_iff :
    Audit.detailValue s = true ↔ s.length ≤ 256 ∧ ∀ c ∈ s.toList, Audit.isControl c = false := by
  simp [Audit.detailValue, Audit.maxDetailValue]

/-- The text of an `int` fits. -/
theorem detailValue_toString (h : n < 2 ^ 63) : Audit.detailValue (toString n) = true := by
  have hdigits : (toString n).toList = Nat.toDigits 10 n := Nat.toList_repr
  refine detailValue_iff.mpr ⟨?_, fun c hc => ?_⟩
  · rw [← String.length_toList, hdigits, Nat.length_toDigits_le_iff (by decide) (by decide)]
    exact h.trans (by decide)
  · rw [hdigits] at hc
    have hdigit := Nat.isDigit_of_mem_toDigits (by decide) le_rfl hc
    simp only [Char.isDigit, Bool.and_eq_true, decide_eq_true_eq] at hdigit
    have hspace : ¬ c < '\x20' := not_lt.mpr (le_trans (by decide) hdigit.1)
    have hdel : ¬ '\x7f' ≤ c := not_le.mpr (lt_of_le_of_lt hdigit.2 (by decide))
    simp [Audit.isControl, hspace, hdel]

/-- A user id that was let in fits unless it has a space. -/
theorem fits_user (h : parseOwner P tenant user = .ok owner) :
    owner.2 ≠ "" ∧ (Fits owner.2 128 ↔ ' ' ∉ owner.2.toList) := by
  unfold parseOwner at h
  simp only [bind_eq_ok, ensure_eq_ok] at h
  obtain ⟨id, -, -, -, -, hprintable, h⟩ := h
  cases h
  simp only [printable, Bool.decide_and, Bool.and_eq_true, decide_eq_true_eq,
    List.all_eq_true] at hprintable
  obtain ⟨hlow, hhigh, hall⟩ := hprintable
  refine ⟨fun h => ?_, fun h hspace => ?_, fun h =>
    ⟨hhigh, printable_iff.mpr fun c hc => ⟨?_, (hall c hc).2⟩⟩⟩
  · rw [show user = "" from h] at hlow
    exact absurd hlow (by decide)
  · exact absurd (printable_iff.mp h.2 ' ' hspace).1 (by decide)
  · -- The one character below those of the audit service is the space.
    rcases (hall c hc).1.lt_or_eq with hlt | rfl
    · exact Nat.succ_le_of_lt hlt
    · exact absurd hc h

/-- A device name that was let in has 1 to 64 characters, none of them a control character. -/
theorem name_ok (h : checkName L given = .ok name) :
    name ≠ "" ∧ name.length ≤ 64 ∧ ∀ c ∈ name.toList, Audit.isControl c = false := by
  unfold checkName at h
  simp only [bind_eq_ok, ensure_eq_ok] at h
  obtain ⟨-, ⟨hname, hlength⟩, h⟩ := h
  cases h
  unfold deviceName at hname
  split at hname
  · cases hname
  next c cs heq =>
    simp only [Bool.and_eq_true, List.all_eq_true, Bool.or_eq_true, decide_eq_true_eq] at hname
    obtain ⟨⟨hc, -⟩, hcs⟩ := hname
    refine ⟨fun h => ?_, hlength, ?_⟩
    · rw [h] at heq
      cases heq
    · rw [heq]
      refine List.forall_mem_cons.mpr ⟨L.not_control c hc, fun d hd => ?_⟩
      have hsigns : ∀ d ∈ [' ', '.', '_', '\'', '-'], Audit.isControl d = false :=
        List.all_iff_forall_prop.mp (by decide)
      rcases hcs d hd with hd | hd
      · exact L.not_control d hd
      · exact hsigns d hd

/-- Such a name fits if its characters do. -/
theorem fits_name (h : checkName L given = .ok name) :
    Fits name 128 ↔ ∀ c ∈ name.toList, '!' ≤ c ∧ c ≤ '~' := by
  refine ⟨fun h => printable_iff.mp h.2, fun hall => ⟨?_, printable_iff.mpr hall⟩⟩
  rw [utf8ByteSize_ascii fun c hc => (hall c hc).2.trans (by decide)]
  exact (name_ok h).2.1.trans (by decide)

theorem isAlphanum_printable (h : c.isAlphanum = true) : '!' ≤ c ∧ c ≤ '~' := by
  simp only [Char.isAlphanum, Char.isAlpha, Char.isUpper, Char.isLower, Char.isDigit,
    Bool.or_eq_true,
    Bool.and_eq_true, decide_eq_true_eq] at h
  rcases h with (⟨h, h'⟩ | ⟨h, h'⟩) | ⟨h, h'⟩
  all_goals exact ⟨le_trans (by decide) h, le_trans h' (by decide)⟩

theorem Fits.append (hs : Fits s m) (ht : Fits t n) : Fits (s ++ t) (m + n) := by
  refine ⟨?_, printable_iff.mpr fun c hc => ?_⟩
  · rw [String.utf8ByteSize_append]
    exact Nat.add_le_add hs.1 ht.1
  · rw [String.toList_append] at hc
    rcases List.mem_append.mp hc with hc | hc
    · exact printable_iff.mp hs.2 c hc
    · exact printable_iff.mp ht.2 c hc

theorem Fits.mono (h : Fits s m) (hle : m ≤ n) : Fits s n := ⟨h.1.trans hle, h.2⟩

theorem AuditDelivery.fits_uuidText (D : AuditDelivery P) (id : UUID) : Fits (P.uuidText id) 36 :=
  ⟨(D.uuidText_size id).le, D.uuidText_printable id⟩

theorem fits_requestIDPattern (h : requestIDPattern s = true) : Fits s 128 := by
  simp only [requestIDPattern, Bool.decide_and, Bool.and_eq_true, decide_eq_true_eq,
    List.all_eq_true,
    Bool.or_eq_true] at h
  obtain ⟨-, hlength, hall⟩ := h
  have hsigns : ∀ c ∈ ['.', '_', ':', '-'], '!' ≤ c ∧ c ≤ '~' :=
    List.all_iff_forall_prop.mp (by decide)
  have hprintable : ∀ c ∈ s.toList, '!' ≤ c ∧ c ≤ '~' := by
    intro c hc
    rcases hall c hc with hc | hc
    · exact isAlphanum_printable hc
    · exact hsigns c hc
  refine ⟨?_, printable_iff.mpr hprintable⟩
  rwa [utf8ByteSize_ascii fun c hc => (hprintable c hc).2.trans (by decide)]

/-- Every request id fits. -/
theorem AuditDelivery.fits_requestID (D : AuditDelivery P) (origin : Origin) :
    Fits (origin.requestID P) 128 := by
  have hid (id : UUID) : Fits (P.uuidText id) 128 := (D.fits_uuidText id).mono (by decide)
  cases origin with
  | rpc values fresh =>
    simp only [Origin.requestID, incomingRequestID]
    split
    · split_ifs with h
      · exact fits_requestIDPattern h
      · exact hid fresh
    · exact hid fresh
  | task id =>
    exact (Fits.append (m := 5) ⟨by decide, by decide⟩ (D.fits_uuidText id)).mono (by decide)
  | memory id =>
    exact (Fits.append (m := 7) ⟨by decide, by decide⟩ (D.fits_uuidText id)).mono (by decide)
  | background => exact (⟨by decide, by decide⟩ : Fits "" 128)

/-! ### Which events are accepted -/

/-- The values of an event that come from elsewhere fit: the tools of the MCP servers, and the
approval ids of the devices. The count of steps is an `int`. -/
def Audited.OthersFit : Audited → Prop
  | .taskFinished _ _ _ steps => steps < 2 ^ 63
  | .confirmationRequested _ a | .settled _ a _ =>
    ∀ d ∈ actionDetails a, Audit.detailValue d.2 = true
  | .notRun approvalID _ => Fits approvalID 128
  | _ => True

/-- The device and the program of an event are ones the audit service takes. -/
def Audited.Plain : Audited → Prop
  | .commandRan device program .. =>
    (∀ c ∈ device.toList, '!' ≤ c ∧ c ≤ '~') ∧
      ∀ c ∈ (truncate program 256).toList, Audit.isControl c = false
  | .approvalRequested _ _ program =>
    program.length ≤ 256 ∧ ∀ c ∈ program.toList, Audit.isControl c = false
  | _ => True

/-- What the audit service asks of the texts of an event. -/
structure AuditEvent.Fit (e : AuditEvent) : Prop where
  actor : Fits e.actor.id 128
  user : Fits e.user 128
  targetType : Fits e.targetType 64
  targetID : Fits e.targetID 128
  reason : Fits e.reason 64
  details : ∀ d ∈ e.details, Audit.detailKeyPattern d.1 = true ∧ Audit.detailValue d.2 = true

theorem AuditDelivery.received_ok (D : AuditDelivery P) (i : ℕ) (origin : Origin)
    (hactor : e.actor.id ≠ "") (haction : Audit.actionPattern e.action = true)
    (hkeys : (e.details.map Prod.fst).Nodup) (hlength : e.details.length ≤ 16) :
    (∃ x, D.received i origin e = .ok x) ↔ e.Fit := by
  have hmem (d : String × String) := Audit.Details.mem_ofList hkeys (x := d)
  unfold AuditDelivery.received
  rw [Audit.event_ok D.parse_eventId (D.parse_uuidText e.tenant) rfl D.valid D.clock]
  constructor
  · intro h
    have hchecks := h.checks
    simp only [Audit.Sent.checks, List.forall_mem_cons] at hchecks
    obtain ⟨hactor, huser, htype, hid, hreason, -⟩ := hchecks
    exact ⟨hactor, huser, htype, hid, hreason, fun d hd => h.details d ((hmem d).mpr hd)⟩
  · intro h
    have hkind : e.actor.kind ≠ .unspecified := by cases e.actor <;> nofun
    have houtcome : e.outcome.sent ≠ .unspecified := by cases e.outcome <;> decide
    refine ⟨⟨hkind, hactor⟩, ?_, haction, houtcome, Audit.Details.length_ofList_le.trans hlength,
      fun d hd => h.details d ((hmem d).mp hd)⟩
    simp only [Audit.Sent.checks, List.forall_mem_cons]
    exact ⟨h.actor, h.user, h.targetType, h.targetID, h.reason, D.fits_requestID origin, nofun⟩

/-- The texts of an event that its kind decides. -/
structure AuditEvent.Constant (e : AuditEvent) : Prop where
  action : Audit.actionPattern e.action = true
  targetType : Fits e.targetType 64
  reason : Fits e.reason 64
  nodup : (e.details.map Prod.fst).Nodup
  length : (e.details.map Prod.fst).length ≤ 16
  keys : ∀ k ∈ e.details.map Prod.fst, Audit.detailKeyPattern k = true

theorem actionDetails_keys (a : Action) : (actionDetails a).map Prod.fst = ["kind"] ∨
    (actionDetails a).map Prod.fst = ["kind", "tool"] ∨
    (actionDetails a).map Prod.fst = ["kind", "integration"] ∨
    (actionDetails a).map Prod.fst = ["kind", "tool", "integration"] := by
  unfold actionDetails
  split_ifs <;> simp

theorem constant_event (x : Audited) (tenant : UUID) (user : String) :
    (x.event P tenant user).Constant := by
  cases x with
  | confirmationRequested id a | settled id a confirm =>
    have hkeys := actionDetails_keys a
    constructor
    all_goals dsimp only [Audited.event]
    all_goals
      first
      | decide
      | (split_ifs <;> decide)
      | (rcases hkeys with h | h | h | h <;> rw [h] <;> decide)
  | notRun approvalID why =>
    cases why <;> constructor <;> dsimp only [Audited.event, NotRun.reason] <;> decide
  | commandRan | approvalRequested | taskStarted | taskFinished | confirmationBlocked =>
    constructor
    all_goals dsimp only [Audited.event, List.map]
    all_goals decide

theorem user_event (x : Audited) (tenant : UUID) (user : String) :
    (x.event P tenant user).user = user := by
  cases x <;> rfl

/-- The events that were let in fit if the user id and the event are plain. -/
theorem fit_event (D : AuditDelivery P) (howner : parseOwner P tenant user = .ok owner)
    (hin : x.LetIn L) (hothers : x.OthersFit) :
    (x.event P owner.1 owner.2).Fit ↔ ' ' ∉ owner.2.toList ∧ x.Plain := by
  obtain ⟨hne, huser⟩ := fits_user howner
  have hconst := constant_event (P := P) x owner.1 owner.2
  have hid (id : UUID) : Fits (P.uuidText id) 128 := (D.fits_uuidText id).mono (by decide)
  have hjarvis : Fits "jarvis" 128 := by decide
  rw [← huser]
  constructor
  · intro h
    refine ⟨user_event x owner.1 owner.2 ▸ h.user, ?_⟩
    cases x with
    | commandRan device program =>
      obtain ⟨⟨given, hgiven⟩, -⟩ := hin
      have hprogram := (h.details ("program", truncate program 256) (by simp [Audited.event])).2
      exact ⟨(fits_name hgiven).mp h.actor, (detailValue_iff.mp hprogram).2⟩
    | approvalRequested task device program =>
      exact detailValue_iff.mp (h.details ("program", program) (by simp [Audited.event])).2
    | _ => trivial
  · rintro ⟨h, hplain⟩
    have hkey {d : String × String} (hd : d ∈ (x.event P owner.1 owner.2).details) :=
      hconst.keys d.1 (List.mem_map_of_mem hd)
    cases x with
    | commandRan device program failed approved =>
      obtain ⟨⟨given, hgiven⟩, -⟩ := hin
      have hdevice := (fits_name hgiven).mpr hplain.1
      refine ⟨hdevice, h, hconst.targetType, hdevice, hconst.reason, fun d hd => ⟨hkey hd, ?_⟩⟩
      have hprogram := detailValue_iff.mpr ⟨length_truncate_le program 256, hplain.2⟩
      simp only [Audited.event, List.mem_cons, List.not_mem_nil, or_false] at hd
      rcases hd with rfl | rfl
      · exact hprogram
      · cases approved <;> decide
    | approvalRequested task device program =>
      obtain ⟨⟨given, hgiven⟩, -⟩ := hin
      obtain ⟨-, hlength, hdevice⟩ := name_ok hgiven
      refine ⟨hjarvis, h, hconst.targetType, hid task, hconst.reason, fun d hd => ⟨hkey hd, ?_⟩⟩
      simp only [Audited.event, List.mem_cons, List.not_mem_nil, or_false] at hd
      rcases hd with rfl | rfl
      · exact detailValue_iff.mpr ⟨hlength.trans (by decide), hdevice⟩
      · exact detailValue_iff.mpr hplain
    | taskStarted task =>
      refine ⟨hjarvis, h, hconst.targetType, hid task, hconst.reason, fun d hd => ⟨hkey hd, ?_⟩⟩
      simp only [Audited.event, List.mem_cons, List.not_mem_nil, or_false] at hd
      subst hd
      decide
    | taskFinished task outcome kind steps =>
      refine ⟨hjarvis, h, hconst.targetType, hid task, hconst.reason, fun d hd => ⟨hkey hd, ?_⟩⟩
      simp only [Audited.event, List.mem_cons, List.not_mem_nil, or_false] at hd
      rcases hd with rfl | rfl
      · cases kind <;> decide
      · exact detailValue_toString hothers
    | confirmationRequested id a =>
      exact ⟨hjarvis, h, hconst.targetType, hid id, hconst.reason, fun d hd =>
        ⟨hkey hd, hothers d hd⟩⟩
    | settled id a confirm =>
      exact ⟨h, h, hconst.targetType, hid id, hconst.reason, fun d hd => ⟨hkey hd, hothers d hd⟩⟩
    | confirmationBlocked id => exact ⟨hjarvis, h, hconst.targetType, hid id, hconst.reason, nofun⟩
    | notRun approvalID why => exact ⟨hjarvis, h, hconst.targetType, hothers, hconst.reason, nofun⟩

/-- The actor of an event that was let in has an id. -/
theorem actor_event {tenant : UUID} (huser : user ≠ "") (hin : x.LetIn L) :
    (x.event P tenant user).actor.id ≠ "" := by
  cases x with
  | commandRan device program =>
    obtain ⟨⟨given, hgiven⟩, -⟩ := hin
    exact (name_ok hgiven).1
  | settled => exact huser
  | _ =>
    dsimp only [Audited.event, Actor.id]
    decide

/-- **The orchestrator's events at the audit service.** Everything a job records is one of the
`Audited` events. For an owner and a device that the orchestrator lets in, such an event is accepted
exactly if the user id has no space, the name of a device that ran a command has no space and no
letter beyond ASCII, the program has no control character in what is recorded of it, and a program
that waits for an approval has at most 256 characters. -/
theorem audit_accepts (D : AuditDelivery P) (L : Letters) :
    (∀ j, Audits P (body P j)) ∧
    ∀ (tenant user : String) (owner : UUID × String), parseOwner P tenant user = .ok owner →
      ∀ x : Audited, x.LetIn L → x.OthersFit → ∀ (i : ℕ) (origin : Origin),
        (∃ e, D.received i origin (x.event P owner.1 owner.2) = .ok e) ↔
          ' ' ∉ owner.2.toList ∧ x.Plain := by
  refine ⟨audits_body, fun tenant user owner howner x hin hothers i origin => ?_⟩
  have hconst := constant_event (P := P) x owner.1 owner.2
  have hlength : (x.event P owner.1 owner.2).details.length ≤ 16 := by
    rw [← List.length_map Prod.fst]
    exact hconst.length
  rw [D.received_ok i origin (actor_event (fits_user howner).1 hin) hconst.action hconst.nodup
    hlength]
  exact fit_event D howner hin hothers

/-- The text of an id is a lowercase canonical UUID. -/
theorem canonical_idText (n : UUID) : Audit.isCanonical (idText n) = true := by
  have hdigit : ∀ x < 16, Nat.digitChar x ∈ "0123456789abcdef".toList := by decide +kernel
  have hhead : "00000000-0000-0000-0000-".toList.length = 24 := by decide +kernel
  have hlist : (idText n).toList = "00000000-0000-0000-0000-".toList ++
      (List.range 12).map fun i => (n / 16 ^ (11 - i) % 16).digitChar := String.toList_ofList
  unfold Audit.isCanonical
  rw [hlist, List.zipIdx_append, List.all_append, List.length_append, hhead, List.length_map,
    List.length_range]
  refine decide_eq_true
    ⟨rfl, Bool.and_eq_true_iff.mpr ⟨by decide +kernel, List.all_eq_true.mpr fun x hx => ?_⟩⟩
  obtain ⟨hlow, -, hc⟩ := List.mem_zipIdx (x := x.1) (i := x.2) hx
  rw [List.getElem_map] at hc
  dsimp only
  rw [if_neg (by omega), hc]
  exact decide_eq_true (hdigit _ (Nat.mod_lt _ (by decide)))
/-- The characters of such a text are printable. -/
theorem printable_of_canonical (h : Audit.isCanonical s = true) :
    s.length = 36 ∧ ∀ c ∈ s.toList, '!' ≤ c ∧ c ≤ '~' := by
  simp only [Audit.isCanonical, Bool.decide_and, Bool.and_eq_true, decide_eq_true_eq,
    List.all_eq_true] at h
  refine ⟨String.length_toList ▸ h.1, fun c hc => ?_⟩
  obtain ⟨i, hi⟩ := List.mem_iff_getElem?.mp hc
  have hc := h.2 (c, i) (List.mem_zipIdx_iff_getElem?.mpr hi)
  have hhex : ∀ c ∈ "0123456789abcdef".toList, '!' ≤ c ∧ c ≤ '~' :=
    List.all_iff_forall_prop.mp (by decide +kernel)
  dsimp only at hc
  split_ifs at hc
  · exact of_decide_eq_true hc ▸ by decide
  · exact hhex c (of_decide_eq_true hc)

/-- The letters and digits of ASCII. -/
def asciiLetters : Letters where
  mem := Char.isAlphanum
  not_control c h := by
    obtain ⟨hlow, hhigh⟩ := isAlphanum_printable h
    have hspace : ¬ c < '\x20' := not_lt.mpr (le_trans (by decide) hlow)
    have hdel : ¬ '\x7f' ≤ c := not_le.mpr (lt_of_le_of_lt hhigh (by decide))
    simp [Audit.isControl, hspace, hdel]

/-- An event is sent at once, and received within the second. -/
def atOnce : AuditDelivery sample where
  eventId := "01234567-89ab-4cde-8f01-23456789abcd"
  occur := ⟨1700000000, 0⟩
  parse s := if h : Audit.isCanonical s = true then some ⟨s, h⟩ else none
  now := 1700000000000000000
  parse_eventId := by decide
  parse_uuidText n := by
    rw [show sample.uuidText n = idText n from rfl, dif_pos (canonical_idText n)]
    rfl
  uuidText_size n := by
    obtain ⟨hlength, hall⟩ := printable_of_canonical (canonical_idText n)
    exact (utf8ByteSize_ascii fun c hc => (hall c hc).2.trans (by decide)).trans hlength
  uuidText_printable n := printable_iff.mpr (printable_of_canonical (canonical_idText n)).2
  valid := by decide
  clock := by decide

/-- A command on the computer `studio` reaches the trail. -/
theorem audit_accepts_studio :
    ∃ e, atOnce.received 0 .background
      ((Audited.commandRan "studio" "/bin/ls" false false).event sample 1 "ann") = .ok e := by
  have hin : (Audited.commandRan "studio" "/bin/ls" false false).LetIn asciiLetters :=
    ⟨⟨"studio", rfl⟩, by decide⟩
  have hplain : (Audited.commandRan "studio" "/bin/ls" false false).Plain :=
    ⟨List.all_iff_forall_prop.mp (by decide), List.all_iff_forall_prop.mp (by decide)⟩
  exact ((audit_accepts atOnce asciiLetters).2 (idText 1) "ann" (1, "ann") (by decide +kernel)
    _ hin trivial 0 .background).mpr ⟨by decide, hplain⟩

/-- The orchestrator registers the computer `Mac Studio`; the audit service refuses the event of a
command that ran on it. -/
theorem refused_spaceInName :
    parseOwner sample (idText 1) "ann" = .ok (1, "ann") ∧
      checkName asciiLetters "Mac Studio" = .ok "Mac Studio" ∧
      atOnce.received 0 .background
        ((Audited.commandRan "Mac Studio" "/bin/ls" false false).event sample 1 "ann") =
          .error "event 0: actor.id must be at most 128 printable ASCII characters" :=
  ⟨by decide +kernel, rfl, by decide +kernel⟩

end Jarvis.Orchestrator
