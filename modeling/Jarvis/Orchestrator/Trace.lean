import Jarvis.Orchestrator.Conform
import Jarvis.Orchestrator.Rows

/-!
# Traces

What a run leaves behind is its trace. `Lawful P tr` says all of a trace that invariants need: each
event is one its job may make after what its thread did before, its answer is one the shared state
gave, and the database went from event to event. `Reaches.lawful` proves it of every run, so facts
about whole runs are inductions over lawful traces.
-/

namespace Jarvis.Orchestrator

open Interleave

variable {P : Params} {tr : List Ev} {e : Ev}

/-! ## Events -/

/-- The event's answer is one that the shared state before it gave. -/
def Answered (e : Ev) : Prop := ∃ o, answer e.before e.act.1 o = some (e.act.2, e.after)

/-- The database changes only by a statement. -/
theorem Answered.effect (h : Answered e) : e.after.db = e.before.db ∨
    ∃ q locked, e.act.1 = .db q ∧ e.after.db = (q.exec locked e.before.now e.before.db).2 := by
  obtain ⟨o, ho⟩ := h
  exact answer_db_eq ho

/-- A statement that returned a value ran. -/
theorem Answered.ok (h : Answered e) (hx : e.act = did q (.ok x)) :
    ∃ locked, e.after.db = (q.exec locked e.before.now e.before.db).2 ∧
      (q.exec locked e.before.now e.before.db).1 = .ok x := by
  obtain ⟨tid, job, act, before, after⟩ := e
  obtain ⟨o, ho⟩ := h
  cases hx
  obtain ⟨locked, hs, hr⟩ := answer_ok ho
  exact ⟨locked, by rw [hs], hr⟩

variable {id : UUID} {a : DeviceApproval}

section

variable (h : Answered e)
include h

/-- What an event does to the row of a task. -/
theorem Answered.task (hk : e.before.db.Keys) (hr : e.before.db.taskRow id = some r) :
    ∃ r', e.after.db.taskRow id = some r' ∧
      (r' = r ∨ ∃ q, e.act.1 = .db q ∧ TaskStep e.before.now r q r') := by
  rcases h.effect with hs | ⟨q, locked, hq, hs⟩
  · exact ⟨r, by rw [hs]; exact hr, .inl rfl⟩
  · obtain ⟨r', hr', ht⟩ := q.exec_task locked e.before.now hk.tasks hr
    exact ⟨r', by rw [hs]; exact hr', .inr ⟨q, hq, ht⟩⟩

/-- Where the row of a task comes from. -/
theorem Answered.no_task (hr : e.before.db.taskRow id = none) :
    e.after.db.taskRow id = none ∨ ∃ t, e.act.1 = .db (.createTask t) ∧ t.id = id ∧
      e.after.db.taskRow id = some (newTask e.before.now t) := by
  rcases h.effect with hs | ⟨q, locked, hq, hs⟩
  · exact .inl (by rw [hs]; exact hr)
  · rw [hs]
    rcases q.exec_no_task locked e.before.now hr with h' | ⟨t, rfl, ht⟩
    · exact .inl h'
    · exact .inr ⟨t, hq, ht⟩

/-- What an event does to the row of a confirmation. -/
theorem Answered.confirmation (hc : e.before.db.confirmationRow id = some c) :
    ∃ c', e.after.db.confirmationRow id = some c' ∧
      (c' = c ∨ ∃ q, e.act.1 = .db q ∧ ConfirmationStep e.before.now e.before.db c q c') := by
  rcases h.effect with hs | ⟨q, locked, hq, hs⟩
  · exact ⟨c, by rw [hs]; exact hc, .inl rfl⟩
  · obtain ⟨c', hc', ht⟩ := q.exec_confirmation locked e.before.now hc
    exact ⟨c', by rw [hs]; exact hc', .inr ⟨q, hq, ht⟩⟩

/-- Where the row of a confirmation comes from. -/
theorem Answered.no_confirmation (hc : e.before.db.confirmationRow id = none) :
    e.after.db.confirmationRow id = none ∨ ∃ c, e.act.1 = .db (.createConfirmation c) ∧ c.id = id ∧
      c.action.isSome ∧ e.after.db.confirmationRow id = some { c with state := .pending } := by
  rcases h.effect with hs | ⟨q, locked, hq, hs⟩
  · exact .inl (by rw [hs]; exact hc)
  · rw [hs]
    rcases q.exec_no_confirmation locked e.before.now hc with h' | ⟨c, rfl, hid, ha, hc'⟩
    · exact .inl h'
    · exact .inr ⟨c, hq, hid, ha, hc'⟩

/-- Where a stored event comes from. -/
theorem Answered.event (hv : v' ∈ e.after.db.events) : v' ∈ e.before.db.events ∨
    (∃ v ∈ e.before.db.events, ∃ q, e.act.1 = .db q ∧ EventStep e.before.now e.before.db v q v') ∨
    ∃ k payload conf, e.act.1 = .db (.addEvent k payload conf) ∧
      v' = newEvent e.before.now e.before.db k payload conf := by
  rcases h.effect with hs | ⟨q, locked, hq, hs⟩
  · exact .inl (hs ▸ hv)
  · rw [hs] at hv
    rcases Query.exec_event hv with ⟨v, hv, ht⟩ | ⟨k, payload, conf, rfl, hv'⟩
    · exact .inr (.inl ⟨v, hv, q, hq, ht⟩)
    · exact .inr (.inr ⟨k, payload, conf, hq, hv'⟩)

/-- Stored events stay. -/
theorem Answered.event_stays (hv : v ∈ e.before.db.events) : ∃ v' ∈ e.after.db.events,
      v' = v ∨ ∃ q, e.act.1 = .db q ∧ EventStep e.before.now e.before.db v q v' := by
  rcases h.effect with hs | ⟨q, locked, hq, hs⟩
  · exact ⟨v, hs ▸ hv, .inl rfl⟩
  · obtain ⟨v', hv', ht⟩ := q.exec_event_stays locked e.before.now hv
    exact ⟨v', hs ▸ hv', .inr ⟨q, hq, ht⟩⟩

/-- An approval is stored only by `SaveApproval`, under a new id. -/
theorem Answered.approval (ha : a ∈ e.after.db.approvals) :
    a ∈ e.before.db.approvals ∨ (e.act.1 = .db (.saveApproval a) ∧
      e.before.db.approvalRow a.approvalID = none) := by
  rcases h.effect with hs | ⟨q, locked, hq, hs⟩
  · exact .inl (hs ▸ ha)
  · rw [hs] at ha
    rcases Query.exec_approval ha with h' | ⟨rfl, hn⟩
    · exact .inl h'
    · exact .inr ⟨hq, hn⟩

/-- An approval goes only with its device, when it expires, or when it is deleted. -/
theorem Answered.approval_stays (ha : a ∈ e.before.db.approvals) :
    a ∈ e.after.db.approvals ∨ e.act.1 = .db (.deleteApproval a.approvalID) ∨
      (e.act.1 = .db .expireApprovals ∧ a.expiresAt < e.before.now) ∨
      ∃ tenant user, e.act.1 = .db (.deleteDevice tenant user a.deviceID) := by
  rcases h.effect with hs | ⟨q, locked, hq, hs⟩
  · exact .inl (hs ▸ ha)
  · rw [hs, hq]
    rcases q.exec_approval_stays locked e.before.now ha with h' | rfl | ⟨rfl, ht⟩ |
      ⟨tenant, user, rfl⟩
    · exact .inl h'
    · exact .inr (.inl rfl)
    · exact .inr (.inr (.inl ⟨rfl, ht⟩))
    · exact .inr (.inr (.inr ⟨tenant, user, rfl⟩))

theorem Answered.keys (hk : e.before.db.Keys) : e.after.db.Keys := by
  rcases h.effect with hs | ⟨q, locked, -, hs⟩
  · rwa [hs]
  · rw [hs]
    exact Query.exec_keys hk

end

/-! ## Lawful traces -/

/-- The database a trace ends in. -/
def dbOf : List Ev → DB
  | [] => {}
  | e :: _ => e.after.db

/-- The events of a run. -/
inductive Lawful (P : Params) : List Ev → Prop
  | nil : Lawful P []
  | cons {e : Ev} {tr : List Ev} (tail : Lawful P tr)
      (does : Does P e.job (keys (pastOf e.tid tr)) e.act.1) (answered : Answered e)
      (db : e.before.db = dbOf tr) (job : ∀ e' ∈ tr, e'.tid = e.tid → e'.job = e.job) :
      Lawful P (e :: tr)

namespace Lawful

/-- What happened earlier is lawful too. -/
theorem tail_of_append (h : Lawful P (l ++ tr)) : Lawful P tr := by
  induction l with
  | nil => exact h
  | cons e l ih =>
    cases h with
    | cons tail _ _ _ _ => exact ih tail

/-- An event starts from the database of the trace before it. -/
theorem before_db (h : Lawful P (e :: tr)) : e.before.db = dbOf tr := by
  cases h with
  | cons _ _ _ db _ => exact db

/-- Whatever happened was an answer of the state it happened in. -/
theorem answered (h : Lawful P tr) (he : e ∈ tr) : Answered e := by
  induction h with
  | nil => cases he
  | cons _ _ answered _ _ ih =>
    rcases List.mem_cons.mp he with rfl | he
    · exact answered
    · exact ih he

/-- Ids are primary keys in every state. -/
theorem keys (h : Lawful P tr) : (dbOf tr).Keys := by
  induction h with
  | nil => constructor <;> simp [dbOf, Table.Keyed]
  | cons _ _ answered db _ ih => exact answered.keys (db ▸ ih)

/-- Ids are primary keys in every state in which something happened. -/
theorem before_keys (h : Lawful P tr) (he : e ∈ tr) : e.before.db.Keys := by
  induction h with
  | nil => cases he
  | cons tail _ _ db _ ih =>
    rcases List.mem_cons.mp he with rfl | he
    · exact db ▸ tail.keys
    · exact ih he

/-- Whatever a thread exchanged is in the trace. -/
theorem event_of_keys (h : x ∈ Orchestrator.keys (pastOf tid tr)) :
    ∃ e ∈ tr, e.tid = tid ∧ e.act = x :=
  mem_pastOf.mp (List.mem_of_mem_filter h)

/-- A key event of a thread is among its key requests. -/
theorem mem_keys (h : e' ∈ tr) (hk : e'.act.1.key = true) :
    e'.act ∈ Orchestrator.keys (pastOf e'.tid tr) :=
  List.mem_filter.mpr ⟨mem_pastOf.mpr ⟨e', h, rfl, rfl⟩, hk⟩

end Lawful

/-! ## Runs -/

section

variable {ok : Cfg → Lbl → Prop} {c : Cfg}

/-- Every thread of a run follows the protocol. -/
theorem Reaches.threads (h : Reaches P ok c) :
    Threaded (fun j past i => Does P j (keys past) i) (fun j past js => Ends P j (keys past) js)
      c :=
  Reach.threaded body_spec h

variable {tid : ℕ} {o : Oracle} {th : Thread Instr Answer Job} {i : Instr}
  {k : Answer i → Op (List Job)} {r : Answer i} {s : Shared}

/-- **Whatever request is made in a run, its job may make it.** -/
theorem Reaches.does (h : Reaches P ok c) (hf : Fires (machine P) c tid o th i k r s) :
    Does P th.job (keys (pastOf tid c.trace)) i :=
  Reach.allowed body_spec h hf

/-- **The trace of every run is lawful**, and ends in the database of the run. -/
theorem Reaches.lawful (h : Reaches P ok c) : Lawful P c.trace ∧ c.shared.db = dbOf c.trace := by
  refine Reach.inv (P := fun s tr => Lawful P tr ∧ s.db = dbOf tr) h ⟨.nil, rfl⟩ ?_ ?_
  · rintro c tid o th i k r s hr ⟨hl, hdb⟩ - hf
    refine ⟨.cons hl (Reaches.does hr hf) ⟨o, hf.answer⟩ hdb ?_, rfl⟩
    exact (Reaches.threads hr).job_eq _ _ hf.thread
  · rintro c v s - ⟨hl, hdb⟩ - hv
    exact ⟨hl, (World.step_db hv).trans hdb⟩

/-- Ids are primary keys. -/
theorem Reaches.keyed (h : Reaches P ok c) : c.shared.db.Keys := by
  rw [h.lawful.2]
  exact h.lawful.1.keys

/-- All that invariants need to know of a step. -/
structure Fired (P : Params) (c : Cfg) (past : Log) (e : Ev) : Prop where
  answered : Answered e
  does : Does P e.job (keys past) e.act.1
  keys : e.before.db.Keys
  known : ∀ x ∈ Orchestrator.keys past, ∃ e' ∈ c.trace, e'.act = x

theorem Reaches.fired (h : Reaches P ok c) (hf : Fires (machine P) c tid o th i k r s) :
    Fired P c th.past ⟨tid, th.job, ⟨i, r⟩, c.shared, s⟩ where
  answered := ⟨o, hf.answer⟩
  does := by
    rw [h.threads.past_eq _ _ hf.thread]
    exact h.does hf
  keys := h.keyed
  known x hx := by
    rw [h.threads.past_eq _ _ hf.thread] at hx
    obtain ⟨e', he', -, hact⟩ := Lawful.event_of_keys hx
    exact ⟨e', he', hact⟩

end

end Jarvis.Orchestrator
