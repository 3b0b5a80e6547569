import Jarvis.Vault.Crypto
import Jarvis.Vault.Keys

/-!
# The Vault: the audit trail

Handlers put what they did into a queue, and a task ships it to the audit service in batches. When
the Vault stops, every sink is dropped, and `finish` waits for the task, but not longer than its
timeout. Source: `services/vault/src/audit.rs`. Durations (how long the task waits for events or
after a failure, how long `finish` waits) are left to the run: a timer may run out whenever it is
set.
-/

namespace Jarvis.Vault

open Steps

/-! ### Entries -/

/-- Source: `authz.rs` `Rpc` -/
inductive Rpc where
  | createKey
  | getDecryptedKey
  | revokeKey
  | listKeys
  | sealData
  | openData
  deriving DecidableEq, Repr

/-- Source: `AuditOutcome` -/
inductive AuditOutcome where
  | success
  | failure (code : Code) (reason : Option String)
  deriving DecidableEq

/-- Source: `AuditEvent` -/
structure AuditEvent where
  rpc : Rpc
  requestId : String
  caller : Option String
  tenantId : Option Uuid
  keyId : Option Uuid
  subject : Option String
  outcome : AuditOutcome
  deriving DecidableEq

/-- Source: `audit.proto` `Outcome` -/
inductive TrailOutcome where
  | success
  | denied
  | failure
  deriving DecidableEq

/-- An event for the audit service, as `to_audit_event` makes it; its actor is a service and its
target type `provider_key`. Source: `audit.proto` `Event` -/
structure TrailEntry where
  eventId : Uuid
  tenantId : Uuid
  occurTime : Time
  actorId : String
  action : String
  targetId : String
  outcome : TrailOutcome
  reason : String
  requestId : String
  deriving DecidableEq

/-- Source: `tonic::Code` `Debug`, in lower case -/
def Code.debugLower : Code → String
  | .invalidArgument => "invalidargument"
  | .unauthenticated => "unauthenticated"
  | .permissionDenied => "permissiondenied"
  | .notFound => "notfound"
  | .failedPrecondition => "failedprecondition"
  | .alreadyExists => "alreadyexists"
  | .internal => "internal"

/-- What stands after the last slash. -/
def lastSegment (text : String) : String :=
  String.ofList (text.toList.reverse.takeWhile (· ≠ '/')).reverse

/-- The first characters of a text. -/
def firstChars (n : ℕ) (text : String) : String := String.ofList (text.toList.take n)

/-- The action of a call, if it belongs to the trail. Source: `to_audit_event` -/
def Rpc.action : Rpc → Option String
  | .createKey => some "key.created"
  | .revokeKey => some "key.revoked"
  | .getDecryptedKey => some "key.read"
  | .listKeys | .sealData | .openData => none

/-- Source: `to_audit_event` (the outcome and its reason) -/
def AuditOutcome.entry : AuditOutcome → TrailOutcome × String
  | .success => (.success, "")
  | .failure code reason =>
    (if code = .permissionDenied ∨ code = .unauthenticated then .denied else .failure,
      reason.elim code.debugLower fun r => r.map Char.toLower)

/-- Source: `to_audit_event` -/
def toAuditEvent (event : AuditEvent) (eventId : Uuid) (now : Time) : Option TrailEntry := do
  let action ← event.rpc.action
  let tenant ← event.tenantId
  let caller := event.caller.elim "unauthenticated" lastSegment
  let (outcome, reason) := event.outcome.entry
  return {
    eventId
    tenantId := tenant
    occurTime := now
    actorId := firstChars 128 caller
    action
    targetId := event.keyId.elim "" Uuid.text
    outcome
    reason := firstChars 64 reason
    requestId := String.ofList
      ((event.requestId.toList.filter fun c => 0x21 ≤ c.toNat ∧ c.toNat ≤ 0x7e).take 128) }

/-! ### The shipper -/

def queueLen : ℕ := 10000

def batchLen : ℕ := 200

/-- How far the task has come. `more` is the variable `open`: some sink may still be there. -/
inductive Ship where
  /-- At the top of the loop. -/
  | top (batch : List TrailEntry) (more : Bool)
  /-- In `send`: the call with the first events of the batch is on its way, and accepted or not
  yet. -/
  | sending (batch : List TrailEntry) (more accepted : Bool)
  /-- In `send`: the events are sent one by one, and so many are done. -/
  | resending (batch : List TrailEntry) (more : Bool) (done : ℕ) (accepted : Bool)
  /-- In the backoff. -/
  | sleeping (batch : List TrailEntry)
  | ended
  deriving DecidableEq

/-- How a call to the audit service ends. -/
inductive CallResult where
  | ok
  | invalidArgument
  | failed
  deriving DecidableEq

inductive Finish where
  | idle
  | waiting
  | returned
  deriving DecidableEq

/-- The sinks, the queue, the task and `finish`; and what was recorded as an entry, accepted by the
audit service, and logged as undelivered (`undelivered`), with the reason. -/
structure Shipper where
  sinks : Bool := true
  queue : List TrailEntry := []
  task : Ship := .top [] true
  finish : Finish := .idle
  recorded : List TrailEntry := []
  accepted : List TrailEntry := []
  logged : List (TrailEntry × String) := []

/-- What can happen next. -/
inductive TrailLabel where
  /-- A handler calls `record`. -/
  | record (event : AuditEvent) (eventId : Uuid) (now : Time)
  /-- The last sink is dropped. -/
  | dropSinks
  /-- The task goes on. -/
  | go
  /-- The timer of `FLUSH_EVERY` runs out, or that of the backoff. -/
  | timer
  /-- The audit service accepts the call that is on its way. -/
  | accept
  | answer (r : CallResult)
  /-- `finish` is called. -/
  | finish
  /-- The task has ended, and `finish` returns. -/
  | join
  /-- The timer of `finish` runs out. -/
  | giveUp
  deriving DecidableEq

namespace Shipper

/-- Source: `record` -/
def record (s : Shipper) (entry : TrailEntry) : Shipper :=
  if s.task = .ended then { s with
    recorded := entry :: s.recorded
    logged := (entry, "the audit shipper has stopped") :: s.logged }
  else if s.queue.length < queueLen then { s with
    recorded := entry :: s.recorded
    queue := s.queue ++ [entry] }
  else { s with
    recorded := entry :: s.recorded
    logged := (entry, "the audit queue is full") :: s.logged }

/-- Source: `ship` (from the second `if` of the loop on) -/
def afterFilling (batch : List TrailEntry) (more : Bool) : Ship :=
  if batch = [] then (if more then .top [] more else .ended) else .sending batch more false

/-- Source: `ship` (the errors of `send`) -/
def afterError (s : Shipper) (batch : List TrailEntry) (more : Bool) : Shipper :=
  if more then { s with task := .sleeping batch }
  else { s with
    logged := batch.map (·, "the audit service was unreachable at shutdown") ++ s.logged
    task := .ended }

/-- `n` of `ship`: how many events of the batch are sent. -/
def sent (batch : List TrailEntry) : ℕ := min batch.length batchLen

/-- The loop of `send` goes on after the event at this place. -/
def afterOne (batch : List TrailEntry) (more : Bool) (done : ℕ) : Ship :=
  if done + 1 < sent batch then .resending batch more (done + 1) false
  else .top (batch.drop (sent batch)) more

/-- The events of the call that is on its way. -/
def onTheWay : Ship → List TrailEntry
  | .sending batch _ _ => batch.take (sent batch)
  | .resending batch _ done _ => batch[done]?.toList
  | _ => []

/-- Source: `ship`, `send`, `record`, `finish` -/
def step (s : Shipper) : TrailLabel → Option Shipper
  | .record event eventId now =>
    if s.sinks then some ((toAuditEvent event eventId now).elim s s.record) else none
  | .dropSinks => if s.sinks then some { s with sinks := false } else none
  | .go =>
    match s.task with
    | .top batch more =>
      if more ∧ batch.length < batchLen then
        match s.queue with
        | entry :: rest => some { s with
            queue := rest
            task := .top (batch ++ [entry]) more }
        | [] => if s.sinks then none else some { s with task := afterFilling batch false }
      else some { s with task := afterFilling batch more }
    | _ => none
  | .timer =>
    match s.task with
    | .top batch more =>
      -- `recv` is asked first: the timer counts only when there is nothing to receive
      if more ∧ batch.length < batchLen ∧ s.queue = [] ∧ s.sinks then
        some { s with task := afterFilling batch more }
      else none
    | .sleeping batch => some { s with task := .top batch true }
    | _ => none
  | .accept =>
    match s.task with
    | .sending batch more false => some { s with
        task := .sending batch more true
        accepted := onTheWay s.task ++ s.accepted }
    | .resending batch more done false => some { s with
        task := .resending batch more done true
        accepted := onTheWay s.task ++ s.accepted }
    | _ => none
  | .answer r =>
    match s.task, r with
    | .sending batch more true, .ok => some { s with task := .top (batch.drop (sent batch)) more }
    | .sending batch more false, .invalidArgument => some { s with
        task := .resending batch more 0 false }
    | .sending batch more _, .failed => some (s.afterError batch more)
    | .resending batch more done true, .ok => some { s with task := afterOne batch more done }
    | .resending batch more done false, .invalidArgument => some { s with
        logged := (onTheWay s.task).map (·, "refused as malformed") ++ s.logged
        task := afterOne batch more done }
    | .resending batch more _ _, .failed => some (s.afterError batch more)
    | _, _ => none
  | .finish =>
    if s.sinks = false ∧ s.finish = .idle then some { s with finish := .waiting } else none
  | .join =>
    if s.finish = .waiting ∧ s.task = .ended then some { s with finish := .returned } else none
  | .giveUp => if s.finish = .waiting then some { s with finish := .returned } else none

/-! ### No event is lost -/

/-- The event was accepted, or logged as undelivered. -/
def Accounted (s : Shipper) (e : TrailEntry) : Prop := e ∈ s.accepted ∨ e ∈ s.logged.map Prod.fst

end Shipper

/-- The batch of the task. -/
def Ship.batch : Ship → List TrailEntry
  | .top batch _ | .sending batch _ _ | .resending batch _ _ _ | .sleeping batch => batch
  | .ended => []

/-- The task has not seen yet that every sink is gone. -/
def Ship.more : Ship → Bool
  | .top _ more | .sending _ more _ | .resending _ more _ _ => more
  | .sleeping _ => true
  | .ended => false

/-- What `send` has done with the events of the batch. -/
def Ship.Sent (P : TrailEntry → Prop) : Ship → Prop
  | .sending batch _ accepted =>
    batch ≠ [] ∧ (accepted = true → ∀ e ∈ batch.take (Shipper.sent batch), P e)
  | .resending batch _ done accepted => done < Shipper.sent batch ∧ (∀ e ∈ batch.take done, P e) ∧
      (accepted = true → ∀ e ∈ batch[done]?, P e)
  | _ => True

theorem Ship.Sent.mono {P Q : TrailEntry → Prop} {t : Ship} (h : t.Sent P) (hPQ : ∀ e, P e → Q e) :
    t.Sent Q := by
  cases t with
  | sending batch more accepted => exact ⟨h.1, fun ha e he => hPQ e (h.2 ha e he)⟩
  | resending batch more done accepted =>
    exact ⟨h.1, fun e he => hPQ e (h.2.1 e he), fun ha e he => hPQ e (h.2.2 ha e he)⟩
  | top | sleeping | ended => trivial

namespace Shipper

variable {s s' : Shipper}

/-- What holds of a shipper. -/
structure Kept (s : Shipper) : Prop where
  /-- Every entry is in the queue, in the batch, or accounted for. -/
  kept : ∀ e ∈ s.recorded, e ∈ s.queue ∨ e ∈ s.task.batch ∨ s.Accounted e
  sent : s.task.Sent s.Accounted
  /-- The task sees that the sinks are gone when it has emptied the queue. -/
  last : s.task.more = false → s.sinks = false ∧ s.queue = []
  finish : s.finish ≠ .idle → s.sinks = false
  returned : s.finish = .returned → ∀ e ∈ s.recorded, s.Accounted e

/-- The condition on steps: when the timer of `finish` runs out, the queue is empty, and so is the
batch of the task, as when it has ended. -/
def careful (s : Shipper) : TrailLabel → Bool
  | .giveUp => s.queue = [] && s.task.batch = []
  | _ => true

/-- Only the task goes on, to another place. -/
theorem Kept.goTo (h : s.Kept) (hbatch : ∀ e ∈ s.task.batch, e ∈ t.batch ∨ s.Accounted e)
    (hsent : t.Sent s.Accounted) (hmore : t.more = false → s.task.more = false) :
    Kept { s with task := t } where
  kept e he := by
    rcases h.kept e he with hq | hb | ha
    · exact .inl hq
    · exact .inr (hbatch e hb)
    · exact .inr (.inr ha)
  sent := hsent
  last hm := h.last (hmore hm)
  finish := h.finish
  returned := h.returned

/-- More is accounted for. -/
theorem Kept.account (h : s.Kept) (accepted : List TrailEntry)
    (logged : List (TrailEntry × String)) : Kept { s with
      accepted := accepted ++ s.accepted
      logged := logged ++ s.logged } := by
  have hmono : ∀ e, s.Accounted e → Accounted { s with
      accepted := accepted ++ s.accepted
      logged := logged ++ s.logged } e := by
    rintro e (ha | hl)
    · exact .inl (List.mem_append_right _ ha)
    · refine .inr ?_
      rw [List.map_append]
      exact List.mem_append_right _ hl
  exact {
    kept := fun e he => (h.kept e he).imp_right fun hb => hb.imp_right (hmono e)
    sent := h.sent.mono hmono
    last := h.last
    finish := h.finish
    returned := fun hf e he => hmono e (h.returned hf e he) }

theorem Kept.record (h : s.Kept) (hsinks : s.sinks = true) (entry : TrailEntry) :
    (s.record entry).Kept := by
  -- As long as there are sinks, `finish` has not been called.
  have hidle : s.finish = .idle := by
    by_contra hne
    exact absurd hsinks (by simp [h.finish hne])
  have hlast : s.task.more ≠ false := fun hm => absurd hsinks (by simp [(h.last hm).1])
  have hended : s.task ≠ .ended := fun he => hlast (by rw [he]; rfl)
  unfold Shipper.record
  rw [if_neg hended]
  split_ifs with hlen
  · refine ⟨fun e he => ?_, h.sent, fun hm => absurd hm hlast, fun hf => absurd hidle hf, ?_⟩
    · rcases List.mem_cons.mp he with rfl | he
      · exact .inl (List.mem_append_right _ (List.mem_singleton_self _))
      · exact (h.kept e he).imp_left (List.mem_append_left _)
    · exact fun hf => absurd (hidle.symm.trans hf) (by simp)
  · have hk := h.account [] [(entry, "the audit queue is full")]
    refine ⟨fun e he => ?_, hk.sent, fun hm => absurd hm hlast, fun hf => absurd hidle hf, ?_⟩
    · rcases List.mem_cons.mp he with rfl | he
      · exact .inr (.inr (.inr (List.mem_cons_self ..)))
      · exact hk.kept e he
    · exact fun hf => absurd (hidle.symm.trans hf) (by simp)

variable {batch : List TrailEntry} {more : Bool}

theorem batch_afterFilling :
    (afterFilling batch more).batch = batch := by
  unfold afterFilling
  split_ifs with hb hm
  · rw [hb]
    rfl
  · rw [hb]
    rfl
  · rfl

theorem more_afterFilling :
    (afterFilling batch more).more = more := by
  unfold afterFilling
  split_ifs with hb hm
  · rfl
  · exact (Bool.eq_false_iff.mpr hm).symm
  · rfl

theorem sent_afterFilling {P : TrailEntry → Prop} :
    (afterFilling batch more).Sent P := by
  unfold afterFilling
  split_ifs with hb hm
  · trivial
  · trivial
  · exact ⟨hb, nofun⟩

section

variable (h : s.Kept)
include h

/-- The task goes on from the top of the loop. -/
theorem Kept.fill (ht : s.task = .top batch more)
    (hmore : more' = false → s.sinks = false ∧ s.queue = []) :
    Kept { s with task := afterFilling batch more' } where
  kept e he := by
    have hk := h.kept e he
    rw [ht] at hk
    rw [batch_afterFilling]
    exact hk
  sent := sent_afterFilling
  last hm := hmore (more_afterFilling.symm.trans hm)
  finish := h.finish
  returned := h.returned

/-- A call has failed. -/
theorem Kept.error (hmore : s.task.more = more) : (s.afterError s.task.batch more).Kept := by
  unfold afterError
  split_ifs with hm
  · refine h.goTo (fun e he => .inl he) trivial fun hf => ?_
    cases hf
  · have hk := h.account []
      (s.task.batch.map (·, "the audit service was unreachable at shutdown"))
    refine hk.goTo (t := .ended) (fun e he => .inr (.inr ?_)) trivial fun _ => ?_
    · rw [List.map_append, List.map_map]
      exact List.mem_append_left _ (List.mem_map.mpr ⟨e, he, rfl⟩)
    · exact hmore.trans (Bool.eq_false_iff.mpr hm)

/-- An event that was sent by itself is done. -/
theorem Kept.one {accepted : Bool} {done : ℕ} (ht : s.task = .resending batch more done accepted)
    (he : ∀ e ∈ batch[done]?, s.Accounted e) :
    Kept { s with task := afterOne batch more done } := by
  have hsent := h.sent
  rw [ht] at hsent
  have hdone : ∀ e ∈ batch.take (done + 1), s.Accounted e := by
    intro e hmem
    rw [List.take_add_one] at hmem
    rcases List.mem_append.mp hmem with hmem | hmem
    · exact hsent.2.1 e hmem
    · exact he e (Option.mem_toList.mp hmem)
  unfold afterOne
  split_ifs with hlt
  · refine h.goTo (fun e he => .inl ?_) ⟨hlt, hdone, nofun⟩ fun hm => ?_
    · rwa [ht] at he
    · rwa [ht]
  · refine h.goTo (fun e he => ?_) trivial fun hm => ?_
    · rw [ht] at he
      -- All that were sent are done.
      have hall : Shipper.sent batch = done + 1 := by
        have hlt' := hsent.1
        omega
      rw [← List.take_append_drop (Shipper.sent batch) batch] at he
      rcases List.mem_append.mp he with he | he
      · exact .inr (hdone e (hall ▸ he))
      · exact .inl he
    · rwa [ht]

theorem Kept.go (hstep : s.step .go = some s') : s'.Kept := by
  dsimp only [Shipper.step] at hstep
  split at hstep
  · rename_i batch more ht
    by_cases hfill : more = true ∧ batch.length < batchLen
    · rw [if_pos hfill] at hstep
      split at hstep
      · rename_i entry rest hq
        cases hstep
        refine ⟨fun e he => ?_, trivial, fun hm => ?_, h.finish, h.returned⟩
        · have hk := h.kept e he
          rw [hq, ht] at hk
          rcases hk with hk | hk | hk
          · rcases List.mem_cons.mp hk with rfl | hk
            · exact .inr (.inl (List.mem_append_right _ (List.mem_singleton_self _)))
            · exact .inl hk
          · exact .inr (.inl (List.mem_append_left _ hk))
          · exact .inr (.inr hk)
        · exact absurd hfill.1 (Bool.eq_false_iff.mp hm)
      · rename_i hq
        split_ifs at hstep with hsinks
        cases hstep
        exact h.fill ht fun _ => ⟨Bool.eq_false_iff.mpr hsinks, hq⟩
    · rw [if_neg hfill] at hstep
      cases hstep
      exact h.fill ht fun hm => h.last (by rw [ht]; exact hm)
  · cases hstep

theorem Kept.timer (hstep : s.step .timer = some s') : s'.Kept := by
  dsimp only [Shipper.step] at hstep
  split at hstep
  · rename_i batch more ht
    split_ifs at hstep
    cases hstep
    exact h.fill ht fun hm => h.last (by rw [ht]; exact hm)
  · rename_i batch ht
    cases hstep
    refine h.goTo (fun e he => .inl ?_) trivial fun hm => ?_
    · rwa [ht] at he
    · cases hm
  · cases hstep

theorem Kept.accept (hstep : s.step .accept = some s') : s'.Kept := by
  have hk := h.account (onTheWay s.task) []
  dsimp only [Shipper.step] at hstep
  split at hstep
  · rename_i batch more ht
    cases hstep
    have hsent := h.sent
    rw [ht] at hsent
    refine hk.goTo (fun e he => .inl ?_) ⟨hsent.1, fun _ e he => .inl ?_⟩ fun hm => ?_
    · rwa [ht] at he
    · rw [ht]
      exact List.mem_append_left _ he
    · rwa [ht]
  · rename_i batch more done ht
    cases hstep
    have hsent := hk.sent
    simp only [ht, Ship.Sent] at hsent
    refine hk.goTo (fun e he => .inl ?_) ⟨hsent.1, fun e he => ?_, fun _ e he => .inl ?_⟩
      fun hm => ?_
    · rwa [ht] at he
    · rw [ht]
      exact hsent.2.1 e he
    · rw [ht]
      exact List.mem_append_left _ (Option.mem_toList.mpr he)
    · rwa [ht]
  · cases hstep

theorem Kept.answer {r : CallResult} (hstep : s.step (.answer r) = some s') : s'.Kept := by
  have hsent := h.sent
  dsimp only [Shipper.step] at hstep
  split at hstep
  · rename_i batch more ht
    cases hstep
    rw [ht] at hsent
    refine h.goTo (fun e he => ?_) trivial fun hm => ?_
    · rw [ht] at he
      have he' : e ∈ batch := he
      rw [← List.take_append_drop (Shipper.sent batch) batch] at he'
      rcases List.mem_append.mp he' with he' | he'
      · exact .inr (hsent.2 rfl e he')
      · exact .inl he'
    · rwa [ht]
  · rename_i batch more ht
    cases hstep
    rw [ht] at hsent
    refine h.goTo (fun e he => .inl ?_) ⟨?_, nofun, nofun⟩ fun hm => ?_
    · rwa [ht] at he
    · exact lt_min (List.length_pos_of_ne_nil hsent.1) (by decide)
    · rwa [ht]
  · rename_i batch more accepted ht
    cases hstep
    have hk := h.error (by rw [ht]; rfl : s.task.more = more)
    rwa [ht] at hk
  · rename_i batch more done ht
    cases hstep
    rw [ht] at hsent
    exact h.one ht (hsent.2.2 rfl)
  · rename_i batch more done ht
    cases hstep
    have hk := h.account [] ((onTheWay s.task).map (·, "refused as malformed"))
    refine hk.one ht fun e he => .inr ?_
    rw [ht]
    exact List.mem_map.mpr ⟨_, List.mem_append_left _
      (List.mem_map_of_mem (Option.mem_toList.mpr he)), rfl⟩
  · rename_i batch more done accepted ht
    cases hstep
    have hk := h.error (by rw [ht]; rfl : s.task.more = more)
    rwa [ht] at hk
  · cases hstep

/-- `finish` returns when nothing is in the queue or in the batch. -/
theorem Kept.returns (hsinks : s.sinks = false) (hqueue : s.queue = [])
    (hbatch : s.task.batch = []) : Kept { s with finish := .returned } := by
  refine ⟨h.kept, h.sent, h.last, fun _ => hsinks, fun _ e he => ?_⟩
  have hk := h.kept e he
  rw [hqueue, hbatch] at hk
  rcases hk with hk | hk | hk
  · cases hk
  · cases hk
  · exact hk

theorem Kept.step (hc : s.careful l = true) (hstep : s.step l = some s') : s'.Kept := by
  cases l with
  | record event eventId now =>
    dsimp only [Shipper.step] at hstep
    split_ifs at hstep with hsinks
    cases hstep
    cases toAuditEvent event eventId now with
    | none => exact h
    | some entry => exact h.record hsinks entry
  | dropSinks =>
    dsimp only [Shipper.step] at hstep
    split_ifs at hstep
    cases hstep
    exact ⟨h.kept, h.sent, fun hm => ⟨rfl, (h.last hm).2⟩, fun _ => rfl, h.returned⟩
  | go => exact h.go hstep
  | timer => exact h.timer hstep
  | accept => exact h.accept hstep
  | answer r => exact h.answer hstep
  | finish =>
    dsimp only [Shipper.step] at hstep
    split_ifs at hstep with hf
    cases hstep
    exact ⟨h.kept, h.sent, h.last, fun _ => hf.1, nofun⟩
  | join =>
    dsimp only [Shipper.step] at hstep
    split_ifs at hstep with hf
    cases hstep
    obtain ⟨hsinks, hqueue⟩ := h.last (by rw [hf.2]; rfl)
    exact h.returns hsinks hqueue (by rw [hf.2]; rfl)
  | giveUp =>
    dsimp only [Shipper.step] at hstep
    split_ifs at hstep with hf
    cases hstep
    obtain ⟨hqueue, hbatch⟩ := Bool.and_eq_true_iff.mp hc
    exact h.returns (h.finish (by simp [hf])) (of_decide_eq_true hqueue) (of_decide_eq_true hbatch)

end

end Shipper

/-- In every run in which the timer of `finish` runs out only when the queue and the batch of the
task are empty: once `finish` has returned, every event that `record` turned into an entry has been
accepted by the audit service or logged as not delivered. -/
theorem trail_complete {ls : List TrailLabel} {s : Shipper}
    (h : Runs Shipper.step (fun s l => s.careful l = true) {} ls s) (hf : s.finish = .returned) :
    ∀ e ∈ s.recorded, e ∈ s.accepted ∨ e ∈ s.logged.map Prod.fst := by
  have hstart : Shipper.Kept {} := ⟨nofun, trivial, nofun, nofun, nofun⟩
  have hkept := h.inv (P := Shipper.Kept) (fun _ _ _ hk hc hstep => hk.step hc hstep) hstart
  exact hkept.returned hf

/-- A key was read by the voice gateway. -/
def keyRead : AuditEvent where
  rpc := .getDecryptedKey
  requestId := "req-1"
  caller := some "spiffe://jarvis.local/voice-gateway"
  tenantId := some 1
  keyId := some 2
  subject := none
  outcome := .success

/-- An event is accepted, and another is refused as malformed after the sinks are gone. -/
def shipping : List TrailLabel :=
  [.record keyRead 3 0, .go, .timer, .accept, .answer .ok, .record keyRead 4 1, .go, .dropSinks,
    .finish, .go, .answer .invalidArgument, .answer .invalidArgument, .go, .join]

/-- One event is accepted, and the log has the other. -/
theorem trail_complete_shipping : ∃ s, Runs Shipper.step (fun s l => s.careful l = true)
    {} shipping s ∧
    s.recorded.length = 2 ∧ ∀ e ∈ s.recorded, e ∈ s.accepted ∨ e ∈ s.logged.map Prod.fst := by
  obtain ⟨s, h, hlen, hf⟩ : ∃ s, Runs Shipper.step (fun s l => s.careful l = true) {} shipping s ∧
      s.recorded.length = 2 ∧ s.finish = .returned := exists_of_run (by decide +kernel)
  exact ⟨s, h, hlen, trail_complete h hf⟩

/-- The call fails while there are sinks, and `finish` gives up during the backoff. -/
def backingOff : List TrailLabel :=
  [.record keyRead 3 0, .go, .timer, .answer .failed, .dropSinks, .finish, .giveUp]

/-- `finish` has returned, and an event was neither accepted nor logged. -/
theorem trail_incomplete : ∃ s, Runs Shipper.step (fun _ _ => true = true) {} backingOff s ∧
    s.finish = .returned ∧ ∃ e ∈ s.recorded, ¬ (e ∈ s.accepted ∨ e ∈ s.logged.map Prod.fst) :=
  exists_of_run (by decide +kernel)

end Jarvis.Vault
