import Jarvis.Bytes

/-!
# The audit service: the hash of an event

Each event of a tenant is hashed together with the hash of the one before it. Source:
`services/audit/internal/chain/chain.go`. SHA-256 is a parameter.

Ids are lowercase canonical UUIDs, as texts; times are those a `timestamptz` holds, to the
microsecond.
-/

namespace Jarvis.Audit

open Encoding

/-- Whether a text is a lowercase canonical UUID. -/
def isCanonical (s : String) : Bool :=
  s.toList.length = 36 ∧ s.toList.zipIdx.all fun (c, i) =>
    if i = 8 ∨ i = 13 ∨ i = 18 ∨ i = 23 then c = '-' else c ∈ "0123456789abcdef".toList

abbrev UUID := { s : String // isCanonical s = true }

instance instLawfulBEqUUID : LawfulBEq UUID := inferInstance

/-- A time that a `timestamptz` holds, in Unix microseconds. -/
structure Timestamp where
  micros : ℤ
  le_micros : -210866803200000000 ≤ micros
  micros_lt : micros < 9224318016000000000
  deriving DecidableEq

/-- The start of Unix time. -/
def epoch : Timestamp := ⟨0, by decide, by decide⟩

/-- The value of an `int64`. -/
def int64 (n : ℤ) : ℤ := n.bmod (2 ^ 64)

/-- Source: `time.UnixMicro`, which is an `int64` -/
def Timestamp.unixMicro (t : Timestamp) : ℤ := int64 t.micros

/-- A `map[string]string`, in the order of its keys. -/
structure Details where
  entries : List (String × String)
  sorted : entries.Pairwise fun a b => a.1 < b.1
  deriving DecidableEq

def Details.empty : Details := ⟨[], .nil⟩

/-- Source: `Event` -/
structure Event where
  tenantId : UUID
  sequence : ℤ
  eventId : UUID
  occurTime : Timestamp
  recordTime : Timestamp
  actorKind : String
  actorId : String
  onBehalfOf : String
  action : String
  targetType : String
  targetId : String
  outcome : String
  reason : String
  requestId : String
  source : String
  details : Details
  deriving DecidableEq

def domain : Bytes := utf8 "jarvis.audit.v1\x00"

/-- What is hashed of an event, as texts. -/
def Event.texts (e : Event) : List String :=
  [e.tenantId.1, e.sequence.repr, e.eventId.1, e.occurTime.unixMicro.repr,
    e.recordTime.unixMicro.repr, e.actorKind, e.actorId, e.onBehalfOf, e.action, e.targetType,
    e.targetId, e.outcome, e.reason, e.requestId, e.source,
    e.details.entries.length.repr] ++ e.details.entries.flatMap fun d => [d.1, d.2]

/-- A text, with its length in front. Source: the closure `field` of `Hash` -/
def field (s : String) : Bytes := uvarint (utf8 s).length ++ utf8 s

/-- What is hashed of an event after `prev`. -/
def preimage (prev : Bytes) (e : Event) : Bytes := domain ++ prev ++ e.texts.flatMap field

/-- Source: `Hash` -/
def hash (sha256 : Bytes → Fixed 32) (prev : Bytes) (e : Event) : Bytes := sha256 (preimage prev e)

/-! ### Nothing is lost -/

theorem Timestamp.unixMicro_injective : Function.Injective Timestamp.unixMicro := by
  rintro ⟨a, ha, ha'⟩ ⟨b, hb, hb'⟩ h
  have hab : a = b := by
    simp only [unixMicro, int64, Int.bmod_def] at h
    omega
  subst hab
  rfl

theorem delimited_field : Delimited Set.univ field :=
  (delimited_uvarint.prefixed).comap utf8_injective.injOn fun _ _ => trivial

theorem field_ne_nil (s : String) : field s ≠ [] := by
  rw [field, uvarint]
  split_ifs <;> simp

/-- Pairs that are written out one after the other. -/
theorem flatMap_pair_injective :
    ∀ {l l' : List (String × String)}, (l.flatMap fun d => [d.1, d.2]) =
    (l'.flatMap fun d => [d.1, d.2]) →
      l = l'
  | [], [], _ => rfl
  | [], d :: l', h => by simp at h
  | d :: l, [], h => by simp at h
  | (k, v) :: l, (k', v') :: l', h => by
    simp only [List.flatMap_cons, List.cons_append, List.nil_append, List.cons.injEq] at h
    obtain ⟨rfl, rfl, h⟩ := h
    rw [flatMap_pair_injective h]

theorem Event.texts_injective : Function.Injective Event.texts := by
  intro e e' h
  simp only [texts, List.cons_append, List.nil_append, List.cons.injEq, intRepr_injective.eq_iff,
    Subtype.ext_iff.symm, Timestamp.unixMicro_injective.eq_iff] at h
  obtain ⟨h₁, h₂, h₃, h₄, h₅, h₆, h₇, h₈, h₉, h₁₀, h₁₁, h₁₂, h₁₃, h₁₄, h₁₅, -, hd⟩ := h
  have hdetails : e.details = e'.details := by
    cases he : e.details
    cases he' : e'.details
    simpa [he, he'] using flatMap_pair_injective hd
  cases e
  cases e'
  simp_all

theorem preimage_injective (hlen : prev.length = prev'.length)
    (h : preimage prev e = preimage prev' e') : prev = prev' ∧ e = e' := by
  rw [preimage, preimage, List.append_assoc, List.append_assoc] at h
  obtain ⟨hprev, htexts⟩ := List.append_inj (List.append_cancel_left h) hlen
  exact ⟨hprev, Event.texts_injective (delimited_field.flatMap_injective (fun s _ => field_ne_nil s)
    (fun _ _ => trivial) (fun _ _ => trivial) htexts)⟩

end Jarvis.Audit
