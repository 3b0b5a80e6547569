import Jarvis.Audit.Chain
import Jarvis.Fallible
import Mathlib

/-!
# The audit service: which events it accepts

The check of an incoming event, and its conversion for the chain. Source:
`services/audit/internal/server/server.go` `event`. `uuid.Parse` is a parameter; it gives the
canonical text. A map has no order in Go, so that of several bad details any may be the one that is
reported; here it is the first one.
-/

namespace Jarvis.Audit

/-- Source: `audit.proto` `ActorKind` -/
inductive ActorKind where
  | unspecified
  | user
  | assistant
  | device
  | service
  deriving DecidableEq, Repr

def ActorKind.name : ActorKind → String
  | .unspecified => "ACTOR_KIND_UNSPECIFIED"
  | .user => "ACTOR_KIND_USER"
  | .assistant => "ACTOR_KIND_ASSISTANT"
  | .device => "ACTOR_KIND_DEVICE"
  | .service => "ACTOR_KIND_SERVICE"

/-- Source: `audit.proto` `Outcome` -/
inductive Outcome where
  | unspecified
  | success
  | failure
  | denied
  deriving DecidableEq, Repr

def Outcome.name : Outcome → String
  | .unspecified => "OUTCOME_UNSPECIFIED"
  | .success => "OUTCOME_SUCCESS"
  | .failure => "OUTCOME_FAILURE"
  | .denied => "OUTCOME_DENIED"

/-- Source: `google.protobuf.Timestamp` -/
structure ProtoTime where
  seconds : ℤ
  nanos : ℤ
  deriving DecidableEq, Repr

/-- Source: `timestamppb.CheckValid` -/
def ProtoTime.valid (t : ProtoTime) : Prop :=
  -62135596800 ≤ t.seconds ∧ t.seconds ≤ 253402300799 ∧ 0 ≤ t.nanos ∧ t.nanos < 1000000000

instance (t : ProtoTime) : Decidable t.valid := inferInstanceAs (Decidable (_ ∧ _ ∧ _ ∧ _))

/-- Source: `AsTime().UTC().Truncate(chain.Precision)` -/
def ProtoTime.truncate (t : ProtoTime) (h : t.valid) : Timestamp where
  micros := t.seconds * 1000000 + t.nanos / 1000
  le_micros := by
    unfold valid at h
    omega
  micros_lt := by
    unfold valid at h
    omega

/-- A map with one more entry, in the place of one with its key. -/
def insertEntry (k v : String) : List (String × String) → List (String × String)
  | [] => [(k, v)]
  | (k', v') :: rest =>
    if k < k' then (k, v) :: (k', v') :: rest
    else if k = k' then (k, v) :: rest
    else (k', v') :: insertEntry k v rest

variable {k v : String} {entries : List (String × String)} {x : String × String} {u : PUnit}

theorem mem_insertEntry (hsorted : entries.Pairwise fun a b => a.1 < b.1) :
    x ∈ insertEntry k v entries ↔ x = (k, v) ∨ (x ∈ entries ∧ x.1 ≠ k) := by
  induction entries with
  | nil => simp [insertEntry]
  | cons e rest ih =>
    obtain ⟨k', v'⟩ := e
    obtain ⟨hlt, hrest⟩ := List.pairwise_cons.mp hsorted
    have hne (h : k ≤ k') (hx : x ∈ rest) : x.1 ≠ k := (lt_of_le_of_lt h (hlt x hx)).ne'
    unfold insertEntry
    split_ifs with hless heq
    · simp only [List.mem_cons]
      grind
    · simp only [List.mem_cons]
      grind
    · simp only [List.mem_cons, ih hrest]
      grind

theorem insertEntry_sorted (hsorted : entries.Pairwise fun a b => a.1 < b.1) :
    (insertEntry k v entries).Pairwise fun a b => a.1 < b.1 := by
  induction entries with
  | nil => exact List.pairwise_singleton _ _
  | cons e rest ih =>
    obtain ⟨k', v'⟩ := e
    obtain ⟨hlt, hrest⟩ := List.pairwise_cons.mp hsorted
    unfold insertEntry
    split_ifs with hless heq
    · refine List.pairwise_cons.mpr ⟨fun x hx => ?_, hsorted⟩
      rcases List.mem_cons.mp hx with rfl | hx
      · exact hless
      · exact hless.trans (hlt x hx)
    · exact List.pairwise_cons.mpr ⟨fun x hx => heq ▸ hlt x hx, hrest⟩
    · refine List.pairwise_cons.mpr ⟨fun x hx => ?_, ih hrest⟩
      rcases (mem_insertEntry hrest).mp hx with rfl | ⟨hx, -⟩
      · exact lt_of_le_of_ne (not_lt.mp hless) (Ne.symm heq)
      · exact hlt x hx

/-- A map from its entries, as in a Go map literal. -/
def Details.ofList : List (String × String) → Details
  | [] => .empty
  | (k, v) :: rest =>
    ⟨insertEntry k v (ofList rest).entries, insertEntry_sorted (ofList rest).sorted⟩

theorem Details.mem_ofList (hnodup : (entries.map Prod.fst).Nodup) :
    x ∈ (ofList entries).entries ↔ x ∈ entries := by
  induction entries with
  | nil => simp [ofList, empty]
  | cons e rest ih =>
    obtain ⟨k, v⟩ := e
    obtain ⟨hnot, hrest⟩ := List.nodup_cons.mp hnodup
    unfold ofList
    rw [mem_insertEntry (ofList rest).sorted, ih hrest, List.mem_cons]
    refine or_congr_right (and_iff_left_of_imp fun hx heq => hnot ?_)
    exact List.mem_map.mpr ⟨x, hx, heq⟩

theorem length_insertEntry_le :
    (insertEntry k v entries).length ≤ entries.length + 1 := by
  induction entries with
  | nil => simp [insertEntry]
  | cons e rest ih =>
    unfold insertEntry
    split_ifs
    · simp
    · simp
    · simpa using ih

theorem Details.length_ofList_le :
    (ofList entries).entries.length ≤ entries.length := by
  induction entries with
  | nil => simp [ofList, empty]
  | cons e rest ih => exact length_insertEntry_le.trans (Nat.succ_le_succ ih)

/-- An event as a service sends it. Source: `audit.proto` `Event` -/
structure Sent where
  eventId : String
  tenantId : String
  occurTime : Option ProtoTime
  actorKind : ActorKind
  actorId : String
  onBehalfOf : String
  action : String
  targetType : String
  targetId : String
  outcome : Outcome
  reason : String
  requestId : String
  details : Details
  deriving DecidableEq

def maxDetails : ℕ := 16

def maxDetailValue : ℕ := 256

/-- In nanoseconds. -/
def maxClockSkew : ℤ := 300 * 1000000000

/-- Source: `printable` -/
def printable (s : String) : Bool := s.toList.all fun c => '\x21' ≤ c ∧ c ≤ '\x7e'

/-- Source: `bounded` -/
def bounded (field value : String) (max : ℕ) : Except String PUnit :=
  ensure (value.utf8ByteSize ≤ max ∧ printable value = true)
    (field ++ " must be at most " ++ toString max ++ " printable ASCII characters")

/-- Source: `actionPattern` -/
def actionPattern (s : String) : Bool :=
  3 ≤ s.length ∧ s.length ≤ 64 ∧ s.toList.all fun c => c.isLower || c.isDigit || c = '_' || c = '.'

/-- Source: `detailKeyPattern` -/
def detailKeyPattern (s : String) : Bool :=
  1 ≤ s.length ∧ s.length ≤ 32 ∧ s.toList.all fun c => c.isLower || c.isDigit || c = '_'

/-- Go's `unicode.IsControl`. -/
def isControl (c : Char) : Bool := c < '\x20' ∨ ('\x7f' ≤ c ∧ c ≤ '\u009f')

/-- Whether a detail has a value that may be stored. -/
def detailValue (s : String) : Bool :=
  s.length ≤ maxDetailValue ∧ s.toList.all fun c => !isControl c

/-- Source: the loop over `GetDetails` -/
def checkDetails : List (String × String) → Except String PUnit
  | [] => .ok ⟨⟩
  | (k, v) :: rest => do
      ensure (detailKeyPattern k = true) "detail keys must be 1 to 32 of a-z 0-9 _"
      ensure (detailValue v = true) ("detail \"" ++ k ++ "\" must be at most " ++
        toString maxDetailValue ++ " characters, without control characters")
      checkDetails rest

/-- Source: the texts of an event that are bounded, in the order of `checks` -/
def Sent.checks (e : Sent) : List (String × String × ℕ) :=
  [("actor.id", e.actorId, 128), ("on_behalf_of", e.onBehalfOf, 128),
    ("target_type", e.targetType, 64), ("target_id", e.targetId, 128), ("reason", e.reason, 64),
    ("request_id", e.requestId, 128)]

def checkAll : List (String × String × ℕ) → Except String PUnit
  | [] => .ok ⟨⟩
  | (field, value, max) :: rest => do
      bounded field value max
      checkAll rest

/-- Source: `canonicalUUID` -/
def canonicalUUID (parse : String → Option UUID) (field value : String) : Except String UUID :=
  okOr (field ++ " must be a UUID") (parse value)

/-- Source: `event`. The time of the service is in nanoseconds. -/
def event (parse : String → Option UUID) (now : ℤ) (i : ℕ) (e : Sent) : Except String Event :=
  Except.mapError (fun message => "event " ++ toString i ++ ": " ++ message) do
    let eventId ← canonicalUUID parse "event_id" e.eventId
    let tenantId ← canonicalUUID parse "tenant_id" e.tenantId
    let occur ← okOr "occur_time is required"
      (e.occurTime.bind fun t => if h : t.valid then some (t.truncate h) else none)
    ensure (occur.micros * 1000 ≤ now + maxClockSkew) "occur_time is in the future"
    ensure (e.actorKind ≠ .unspecified ∧ e.actorId ≠ "") "actor kind and id are required"
    checkAll e.checks
    ensure (actionPattern e.action = true) "action must be 3 to 64 of a-z 0-9 . _"
    ensure (e.outcome ≠ .unspecified) "outcome is required"
    ensure (e.details.entries.length ≤ maxDetails) ("at most " ++ toString maxDetails ++ " details")
    checkDetails e.details.entries
    pure ⟨tenantId, 0, eventId, occur, epoch, e.actorKind.name, e.actorId, e.onBehalfOf, e.action,
      e.targetType, e.targetId, e.outcome.name, e.reason, e.requestId, "", e.details⟩

/-! ### What is accepted -/

theorem bounded_ok {field value : String} {max : ℕ} :
    bounded field value max = .ok u ↔ value.utf8ByteSize ≤ max ∧ printable value = true :=
  ensure_eq_ok

theorem checkAll_ok {checks : List (String × String × ℕ)} :
    checkAll checks = .ok u ↔
      ∀ x ∈ checks, x.2.1.utf8ByteSize ≤ x.2.2 ∧ printable x.2.1 = true := by
  induction checks with
  | nil => simp [checkAll]
  | cons x rest ih =>
    simp only [checkAll, bind_eq_ok, bounded_ok, ih, List.forall_mem_cons]
    exact ⟨fun ⟨_, h⟩ => h, fun h => ⟨⟨⟩, h⟩⟩

theorem checkDetails_ok :
    checkDetails details = .ok u ↔
      ∀ d ∈ details, detailKeyPattern d.1 = true ∧ detailValue d.2 = true := by
  induction details with
  | nil => simp [checkDetails]
  | cons d rest ih =>
    simp only [checkDetails, bind_eq_ok, ensure_eq_ok, ih, List.forall_mem_cons]
    constructor
    · rintro ⟨_, hk, _, hv, h⟩
      exact ⟨⟨hk, hv⟩, h⟩
    · rintro ⟨⟨hk, hv⟩, h⟩
      exact ⟨⟨⟩, hk, ⟨⟩, hv, h⟩

/-- Whether the texts of an event may be stored. -/
structure Sent.Acceptable (e : Sent) : Prop where
  actor : e.actorKind ≠ .unspecified ∧ e.actorId ≠ ""
  checks : ∀ x ∈ e.checks, x.2.1.utf8ByteSize ≤ x.2.2 ∧ printable x.2.1 = true
  action : actionPattern e.action = true
  outcome : e.outcome ≠ .unspecified
  length : e.details.entries.length ≤ maxDetails
  details : ∀ d ∈ e.details.entries, detailKeyPattern d.1 = true ∧ detailValue d.2 = true

/-- **An event is accepted** if its ids and its time are, and its texts may be stored. -/
theorem event_ok {parse : String → Option UUID} (hid : (parse e.eventId).isSome)
    (htenant : (parse e.tenantId).isSome) (htime : e.occurTime = some t) (hvalid : t.valid)
    (hnow : (t.truncate hvalid).micros * 1000 ≤ now + maxClockSkew) :
    (∃ x, event parse now i e = .ok x) ↔ e.Acceptable := by
  obtain ⟨eventId, hid⟩ := Option.isSome_iff_exists.mp hid
  obtain ⟨tenantId, htenant⟩ := Option.isSome_iff_exists.mp htenant
  have hoccur : (e.occurTime.bind fun t => if h : t.valid then some (t.truncate h) else none) =
      some (t.truncate hvalid) := by
    rw [htime, Option.bind_some, dif_pos hvalid]
  unfold event canonicalUUID
  simp only [mapError_eq_ok, hid, htenant, hoccur, okOr, ok_bind, bind_eq_ok, ensure_eq_ok,
    checkAll_ok, checkDetails_ok]
  constructor
  · rintro ⟨_, _, -, _, hactor, _, hchecks, _, haction, _, houtcome, _, hlength, _, hdetails, -⟩
    exact ⟨hactor, hchecks, haction, houtcome, hlength, hdetails⟩
  · rintro ⟨hactor, hchecks, haction, houtcome, hlength, hdetails⟩
    exact ⟨_, ⟨⟩, hnow, ⟨⟩, hactor, ⟨⟩, hchecks, ⟨⟩, haction, ⟨⟩, houtcome, ⟨⟩, hlength,
      ⟨⟩, hdetails, rfl⟩

end Jarvis.Audit
