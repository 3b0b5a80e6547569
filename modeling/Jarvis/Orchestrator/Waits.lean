import Jarvis.Orchestrator.Approvals
import Jarvis.Orchestrator.Pauses

/-!
# Tasks that wait for an approval

A task is put to `awaiting_approval` and then its approval is stored; an approval is taken away,
when it is used or expires, and then its task is resumed. In between, only the running thread knows
that the task waits (`Saving`, `Dropping`). A device takes its approvals with it when it is removed,
and nobody resumes their tasks.
-/

namespace Jarvis.Orchestrator

open Interleave Engine Table

variable {P : Params} {tr : List Ev} {e : Ev} {T : UUID} {w : String}

/-! ## What a waiting task waits for -/

/-- The call id a task that waits for an approval waits on. A command has no call. -/
def callOf (r : TaskRow) : Option String :=
  match r.kind with
  | .agent => headCall r.toTask
  | .command => some ""

/-- The task waits for the approval of a call. -/
def DB.awaitsCall (db : DB) (T : UUID) (w : String) : Bool :=
  (db.taskRow T).any fun r => r.state = .awaitingApproval && callOf r = some w

/-- An approval for a call of a task. -/
def covers (T : UUID) (w : String) (a : DeviceApproval) : Bool := a.taskID = T && a.callID = w

/-- The task waits for an approval, and there is none. -/
def DB.uncovered (db : DB) (T : UUID) (w : String) : Bool :=
  db.awaitsCall T w && !db.approvals.any (covers T w)

variable {db : DB} {a : DeviceApproval} {ok : Cfg → Lbl → Prop} {c : Cfg}
  {r : TaskRow} {i : Instr} {ks past : Log} {j : Job} {x : Exchange} {tid : ℕ}
  {th : Thread Instr Answer Job}

theorem DB.awaitsCall_iff : db.awaitsCall T w = true ↔ ∃ r, db.taskRow T = some r ∧
    r.state = .awaitingApproval ∧ callOf r = some w := by
  simp [DB.awaitsCall, Option.any_eq_true]

theorem covers_iff : covers T w a = true ↔ a.taskID = T ∧ a.callID = w := by
  simp [covers]

theorem DB.uncovered_iff : db.uncovered T w = true ↔
    db.awaitsCall T w = true ∧ ∀ a ∈ db.approvals, ¬ (a.taskID = T ∧ a.callID = w) := by
  simp [DB.uncovered, covers]

/-- Every task that waits for an approval waits on a call. -/
theorem Reaches.awaitsCall (h : Reaches P ok c) (hr : c.shared.db.taskRow T = some r)
    (hs : r.state = .awaitingApproval) : ∃ w, callOf r = some w := by
  cases hk : r.kind with
  | command => exact ⟨"", by simp [callOf, hk]⟩
  | agent =>
    obtain ⟨w, hw⟩ := h.waits hr (DB.waiting_iff.mpr (.inr hs)) hk
    exact ⟨w, by simpa [callOf, hk] using hw⟩

/-! ## Ending a wait -/

/-- The approval an update is about. -/
def Resume.approval : Resume → Option DeviceApproval
  | .complete .. => none
  | .approved a _ => some a
  | .dropped a _ _ => some a

theorem resumes_iff :
    resumes a i ↔ ∃ u, i = .db (.resumeTask a.taskID u) ∧ u.approval = some a := by
  constructor
  · intro h
    unfold resumes at h
    split at h
    · obtain ⟨rfl, rfl⟩ := h
      exact ⟨_, rfl, rfl⟩
    · obtain ⟨rfl, rfl⟩ := h
      exact ⟨_, rfl, rfl⟩
    · exact h.elim
  · rintro ⟨u, rfl, hu⟩
    cases u with
    | complete => cases hu
    | approved | dropped => exact ⟨rfl, Option.some.inj hu⟩

/-- A task takes the outcome of the approval it waits for. -/
theorem Reaches.applies (h : Reaches P ok c) (hr : c.shared.db.taskRow T = some r)
    (hcall : callOf r = some a.callID) {u : Resume} (hu : u.approval = some a) :
    ∃ t, u.apply r.toTask = some t := by
  cases hk : r.kind with
  | command =>
    cases u with
    | complete => cases hu
    | approved | dropped => exact ⟨_, if_pos hk⟩
  | agent =>
    have hhead : headCall r.toTask = some a.callID := by simpa [callOf, hk] using hcall
    have hne : r.kind ≠ .command := by simp [hk]
    cases u with
    | complete => cases hu
    | approved b out =>
      obtain rfl : b = a := Option.some.inj hu
      simpa [Resume.apply, hne] using h.completes hr hk hhead out
    | dropped b why out =>
      obtain rfl : b = a := Option.some.inj hu
      simpa [Resume.apply, hne] using h.completes hr hk hhead out

/-! ## Approvals threads work on -/

/-- The thread has read the approval. -/
def Loaded (a : DeviceApproval) (ks : Log) : Prop :=
  ∃ tenant user x, did (.approval tenant user x) (.ok a) ∈ ks

/-- The thread has taken the approval away because it expired. -/
def TakenAway (a : DeviceApproval) (ks : Log) : Prop :=
  ∃ as, did .expireApprovals (.ok as) ∈ ks ∧ a ∈ as

/-- The thread works on an approval with this id. -/
def worksOn (x : String) (ks : Log) : Bool :=
  ks.any fun
    | ⟨.db (.approval ..), .ok a⟩ => a.approvalID = x
    | ⟨.db .expireApprovals, .ok as⟩ => as.any (·.approvalID = x)
    | _ => false

theorem Loaded.worksOn (h : Loaded a ks) :
    worksOn a.approvalID ks = true := by
  obtain ⟨tenant, user, x, hmem⟩ := h
  exact List.any_eq_true.mpr ⟨_, hmem, by simp⟩

theorem TakenAway.worksOn (h : TakenAway a ks) :
    worksOn a.approvalID ks = true := by
  obtain ⟨as, hmem, ha⟩ := h
  exact List.any_eq_true.mpr ⟨_, hmem, List.any_eq_true.mpr ⟨a, ha, by simp⟩⟩

/-- What is stored under the ids a thread works on: what it has read, and nothing it has taken
away. -/
def Current (db : DB) (ks : Log) : Prop :=
  (∀ a, Loaded a ks → ∀ b ∈ db.approvals, b.approvalID = a.approvalID →
    b.taskID = a.taskID ∧ b.callID = a.callID) ∧
  ∀ a, TakenAway a ks → ∀ b ∈ db.approvals, b.approvalID ≠ a.approvalID

theorem Does.deleteApproval_inv (h : Does P j ks (.db (.deleteApproval y))) :
    (∃ tenant user x a, did (.approval tenant user x) (.ok a) ∈ ks ∧ (y = a.approvalID ∨ y = x) ∧
      ∀ z ∈ ks, ∀ b, ¬ resumes b z.1) ∨
    ∃ a, TakenAway a ks ∧ y = a.approvalID := by
  have tried : ∀ {ap : Approval} {d : Device} {l : Log} {r : Except Status DeviceResponse},
      Tried ap d l r → ∀ z ∈ l, ∀ b, ¬ resumes b z.1 := by
    intro ap d l r ht
    cases ht <;> simp [resumes]
  cases h with
  | free h => cases h
  | deleteSpent ht hr =>
    refine .inl ⟨_, _, _, _, List.mem_append_right _ (.tail _ (.head _)), .inl rfl,
      fun z hz b => ?_⟩
    rcases List.mem_append.mp hz with hz | hz
    · exact tried ht z hz b
    · rcases List.mem_pair.mp hz with rfl | rfl <;> exact id
  | deleteUsed ht =>
    refine .inl ⟨_, _, y, _, List.mem_append_right _ (.tail _ (.head _)), .inr rfl,
      fun z hz b => ?_⟩
    rcases List.mem_append.mp hz with hz | hz
    · exact tried ht z hz b
    · rcases List.mem_pair.mp hz with rfl | rfl <;> exact id
  | deleteExpired h ha => exact .inr ⟨_, ⟨_, h, ha⟩, rfl⟩

theorem Does.expireApprovals_inv (h : Does P j ks (.db .expireApprovals)) :
    ks = [] := by
  cases h with
  | free h => cases h
  | expireApprovals => rfl

theorem Does.createTask_job (h : Does P j ks (.db (.createTask t))) :
    ks = [] ∧ ∀ last, j ≠ .maintenance last := by
  cases h with
  | free h => cases h
  | startTask | awaitApproval => exact ⟨rfl, fun _ h => by cases h⟩

/-- A task that is not created leaves nothing. -/
theorem createTask_told (locked : List ℕ) (now : Time) (db : DB) (t : Task) :
    ((Query.createTask t).exec locked now db).1 = .ok () ∨
      ((Query.createTask t).exec locked now db).2 = db := by
  simp only [Query.exec, DB.createTask]
  split_ifs
  · exact .inr rfl
  · exact .inl rfl

/-- A thread that has yet to store an approval stores it next. -/
theorem Saving.next (hs : Saving T w ks) (hj : ∀ last, j ≠ .maintenance last) (hd : Does P j ks i)
    (hk : i.key = true) :
    ∃ a, i = .db (.saveApproval a) ∧ a.taskID = T ∧ a.callID = w := by
  -- No other job that has made just this one key request makes a further one.
  obtain ⟨x, hx, hw⟩ : ∃ x, [x] = ks ∧
      ((∃ t, x = did (.createTask t) (.ok ()) ∧ t.id = T ∧ w = "") ∨
        ∃ t owner result, x = did (.setTaskState t owner .awaitingApproval result) (.ok true) ∧
          t.id = T ∧ headCall t = some w) := by
    rcases hs with ⟨t, rfl, ht, -, hw⟩ | ⟨t, owner, result, rfl, ht⟩
    · exact ⟨_, rfl, .inl ⟨t, rfl, ht, hw⟩⟩
    · exact ⟨_, rfl, .inr ⟨t, owner, result, rfl, ht⟩⟩
  have long : ∀ {l : Log} {y z : Exchange}, [x] ≠ l ++ [y, z] := by
    intro l y z h
    simpa using congrArg List.length h
  cases hd with
  | free h => rw [Instr.key_of_free h] at hk; cases hk
  | readOnly | ackCall => cases hk
  | saveVoiceApproval hk' ht hi =>
    cases hx
    rcases hw with ⟨t, heq, rfl, rfl⟩ | ⟨_, _, _, heq, -⟩ <;> cases heq
    exact ⟨_, rfl, ht, hi⟩
  | saveTaskApproval ht hi =>
    cases hx
    rcases hw with ⟨_, heq, -⟩ | ⟨t, owner, result, heq, rfl, hhead⟩ <;> cases heq
    rw [headCall_withState] at hhead
    exact ⟨_, rfl, ht, hi.trans (Option.some.inj hhead)⟩
  | resumeSettled hl =>
    rcases hl with rfl | ⟨_, _, _, _, _, _, rfl⟩
    · cases hx
      rcases hw with ⟨_, heq, -⟩ | ⟨_, _, _, heq, -⟩ <;> cases heq
    · simp at hx
  | fail hk' =>
    rcases hk' with rfl | ⟨e, rfl⟩
    · simp at hx
    · cases hx
      rcases hw with ⟨_, heq, -⟩ | ⟨_, _, _, heq, -⟩ <;> cases heq
  | deleteSpent | deleteUsed => exact absurd hx long
  | resumeSpent | resumeUsed => simp at hx
  | deleteExpired | dropExpired | expireConfirmations | resumeExpired => exact absurd rfl (hj _)
  | close | queueClosed | closeAbandoned | queueAbandoned | upsertDevice => cases hk
  | _ =>
    cases hx
    all_goals rcases hw with ⟨_, heq, -⟩ | ⟨_, _, _, heq, -⟩ <;> cases heq

/-! ## Pairs of statements -/

/-- The database takes the approval: its id is new, and its device and task exist. -/
def DB.accepts (db : DB) (a : DeviceApproval) : Bool :=
  (db.approvalRow a.approvalID).isNone && (db.deviceByID a.deviceID).isSome &&
    (db.taskRow a.taskID).isSome

/-- No statement that makes a task wait for a thread is lost, none that ends such a wait fails, no
approval is stored under the id of one that a thread still works on, and no device is removed while
a task waits for an approval on it. -/
def coversSafely (c : Cfg) (i : Instr) (o : Oracle) : Bool :=
  match i with
  | .db (.createTask t) => !o.isLost || t.kind = .agent
  | .db (.setTaskState t owner .awaitingApproval _) =>
    !o.isLost || !c.shared.db.tasks.any (DB.held t.id owner)
  | .db (.saveApproval a) =>
    !(c.someThread fun past => worksOn a.approvalID (keys past)) &&
      (!c.shared.db.uncovered a.taskID a.callID || (!o.fails && c.shared.db.accepts a))
  | .db (.resumeTask T u) => !o.fails || !u.approval.any fun a => c.shared.db.uncovered T a.callID
  | .db .expireApprovals =>
    !o.isLost || !c.shared.db.approvals.any fun a =>
      a.expiresAt < c.shared.now && c.shared.db.awaitsCall a.taskID a.callID
  | .db (.deleteDevice tenant user id) =>
    o.fails || !(c.shared.db.devices.any fun d => d.id = id ∧ d.tenantID = tenant ∧ d.userID = user)
      ||
      !c.shared.db.approvals.any fun a =>
        a.deviceID = id && c.shared.db.awaitsCall a.taskID a.callID
  | _ => true

/-- The thread takes care of a wait: it is about to store the approval, or to resume the task. -/
def Tends (j : Job) (ks : Log) (T : UUID) (w : String) : Prop :=
  ((∀ last, j ≠ .maintenance last) ∧ Saving T w ks) ∨
    ∃ a, a.taskID = T ∧ a.callID = w ∧ Dropping a ks

theorem Quiet.untended (h : Quiet P ks) : ¬ Tends j ks T w := by
  rintro (⟨-, hs⟩ | ⟨a, -, -, hd⟩)
  · exact h.saved T w hs
  · exact h.dropped a hd

/-- The runs in which this is so, and in which no process stops while one of its threads takes care
of a wait. -/
abbrev Covering : Cfg → Lbl → Prop :=
  guarded coversSafely fun c p => ∀ tid th, c.threads tid = some th → th.proc = p →
    ∀ T w, c.shared.db.uncovered T w = true → ¬ Tends th.job (keys th.past) T w

theorem Loaded.of_cons (h : Loaded a (keys (x :: past))) :
    Loaded a (keys past) ∨ ∃ tenant user y, x = did (.approval tenant user y) (.ok a) := by
  obtain ⟨tenant, user, y, hmem⟩ := h
  rcases mem_keys_cons hmem with heq | hmem
  · exact .inr ⟨tenant, user, y, heq.symm⟩
  · exact .inl ⟨tenant, user, y, hmem⟩

theorem TakenAway.of_cons (h : TakenAway a (keys (x :: past))) :
    TakenAway a (keys past) ∨ ∃ as, x = did .expireApprovals (.ok as) ∧ a ∈ as := by
  obtain ⟨as, hmem, ha⟩ := h
  rcases mem_keys_cons hmem with heq | hmem
  · exact .inr ⟨as, heq.symm, ha⟩
  · exact .inl ⟨as, hmem, ha⟩

theorem Current.nil : Current db [] :=
  ⟨fun _ ⟨_, _, _, h⟩ => (by cases h), fun _ ⟨_, h, _⟩ => (by cases h)⟩

/-- What a thread reads or takes away is current. -/
theorem Current.cons (hf : Fired P c past e) (h : Current e.after.db (keys past)) :
    Current e.after.db (keys (e.act :: past)) := by
  constructor
  · intro a ha b hb hid
    rcases ha.of_cons with ha | ⟨tenant, user, y, hact⟩
    · exact h.1 a ha b hb hid
    · obtain ⟨locked, hs, hok⟩ := hf.answered.ok hact
      obtain ⟨b', hb', -, rfl⟩ := approval_ok hok
      have hsame : e.after.db = e.before.db := by rw [hs, Query.exec]
      rw [hsame] at hb
      obtain rfl := Keyed.eq hf.keys.approvals hb hb' hid
      exact ⟨rfl, rfl⟩
  · intro a ha b hb hid
    rcases ha.of_cons with ha | ⟨as, hact, ha⟩
    · exact h.2 a ha b hb hid
    · obtain ⟨locked, hs, hok⟩ := hf.answered.ok hact
      cases hok
      rw [hs] at hb
      obtain ⟨hb, hlive⟩ := mem_delete.mp hb
      obtain ⟨ha, hdead⟩ := List.mem_filter.mp ha
      obtain rfl := Keyed.eq hf.keys.approvals hb ha hid
      rw [hdead] at hlive
      cases hlive

/-- An approval that a thread works on is not stored anew. -/
theorem Covering.not_saved {tid' : ℕ} {o : Oracle} {th' : Thread Instr Answer Job}
    {k : Answer i → Op (List Job)} {r : Answer i} {s : Shared} (hr : Reaches P Covering c)
    (hok : Covering c (.exec tid o)) (hf : Fires (machine P) c tid o th i k r s)
    (hth' : c.threads tid' = some th') {x : String} (hw : worksOn x (keys th'.past) = true)
    {b : DeviceApproval} (hb : b ∈ s.db.approvals) (hid : b.approvalID = x) :
    b ∈ c.shared.db.approvals := by
  rcases (hr.fired hf).answered.approval hb with hb | ⟨hq, -⟩
  · exact hb
  · obtain rfl : i = .db (.saveApproval b) := hq
    have hsome := hr.threads.someThread (p := fun past => worksOn b.approvalID (keys past)) hth'
      (by rw [hid]; exact hw)
    have hg := guarded.exec hok hf
    simp [coversSafely, hsome] at hg

/-- **What threads work on is current.** -/
theorem Covering.current (h : Reaches P Covering c) (hth : c.threads tid = some th) :
    Current c.shared.db (keys th.past) := by
  have keep : ∀ {c : Cfg} {tid tid' : ℕ} {o : Oracle} {th th' : Thread Instr Answer Job}
      {i : Instr} {k : Answer i → Op (List Job)} {r : Answer i} {s : Shared},
      Reaches P Covering c → Covering c (.exec tid o) → Fires (machine P) c tid o th i k r s →
      c.threads tid' = some th' → Current c.shared.db (keys th'.past) →
      Current s.db (keys th'.past) := by
    intro c tid tid' o th th' i k r s hr hok hf hth' hL
    constructor
    · intro a ha b hb hid
      exact hL.1 a ha b (Covering.not_saved hr hok hf hth' ha.worksOn hb hid) hid
    · intro a ha b hb hid
      exact hL.2 a ha b (Covering.not_saved hr hok hf hth' ha.worksOn hb hid) hid
  refine (Reach.joint_inv body_spec h (G := fun _ _ => True)
    (L := fun s _ _ _ past => Current s.db (keys past)) trivial ?_ ?_ ?_ ?_ ?_ ?_ ?_).2 tid th hth
  · exact fun s tr tid j _ _ => Current.nil
  · exact fun s tr p tid j _ _ => Current.nil
  · exact fun _ _ _ _ _ _ _ _ _ _ _ _ _ => trivial
  · exact fun c tid o th i k a s js _ _ _ _ _ _ tid' j _ => Current.nil
  · exact fun c tid o th i k r s hr hok hf _ hL =>
      Current.cons (Reaches.fired hr hf) (keep hr hok hf hf.thread hL)
  · exact fun c tid o th i k r s tid' th' hr hok hf _ _ _ hth' hL => keep hr hok hf hth' hL
  · rintro c v s - hv -
    have hdb : s.db = c.shared.db := World.step_db hv
    rw [hdb]
    exact ⟨trivial, fun tid j past hL => hL⟩

theorem Dropping.cons (h : Dropping a (keys past)) (hx : ¬ resumes a x.1) :
    Dropping a (keys (x :: past)) := by
  refine ⟨?_, fun z hz => ?_⟩
  · rcases h.1 with ⟨tenant, user, y, z, r, hload, hdel⟩ | ⟨as, hexp, ha⟩
    · exact .inl ⟨tenant, user, y, z, r, keys_subset_cons hload, keys_subset_cons hdel⟩
    · exact .inr ⟨as, keys_subset_cons hexp, ha⟩
  · rcases mem_keys_cons hz with rfl | hz
    · exact hx
    · exact h.2 z hz

section Fire

variable {o : Oracle} {k : Answer i → Op (List Job)} {r : Answer i} {s : Shared}

/-- A thread that stores an approval ends the wait. -/
theorem Covering.saves (hok : Covering c (.exec tid o)) (hf : Fires (machine P) c tid o th i k r s)
    (hi : i = .db (.saveApproval a)) (hu : c.shared.db.uncovered a.taskID a.callID = true) :
    s.db.uncovered a.taskID a.callID = false := by
  subst hi
  have hg := guarded.exec hok hf
  simp only [coversSafely, hu, Bool.not_true, Bool.false_or, Bool.and_eq_true, Bool.not_eq_true',
    DB.accepts] at hg
  obtain ⟨-, hfail, ⟨hnew, hdev⟩, htask⟩ := hg
  obtain ⟨locked, hs⟩ := answer_runs hf.answer hfail
  have hmem : a ∈ s.db.approvals := by
    rw [hs]
    simp [Query.exec, DB.saveApproval, Option.isNone_iff_eq_none.mp hnew,
      Option.isSome_iff_ne_none.mp hdev, Option.isSome_iff_ne_none.mp htask]
  by_contra hu'
  rw [Bool.not_eq_false] at hu'
  exact (DB.uncovered_iff.mp hu').2 a hmem ⟨rfl, rfl⟩

section

variable (hr : Reaches P Covering c) (hok : Covering c (.exec tid o))
  (hf : Fires (machine P) c tid o th i k r s)
include hr hok hf

/-- A thread that resumes a task ends the wait. -/
theorem Covering.resumes (hi : Orchestrator.resumes a i)
    (hu : c.shared.db.uncovered a.taskID a.callID = true) :
    s.db.uncovered a.taskID a.callID = false := by
  obtain ⟨u, rfl, hua⟩ := resumes_iff.mp hi
  have hg := guarded.exec hok hf
  have hfail : o.fails = false := by simpa [coversSafely, hua, hu] using hg
  obtain ⟨locked, hs⟩ := answer_runs hf.answer hfail
  obtain ⟨row, hrow, hst, hcall⟩ := DB.awaitsCall_iff.mp (DB.uncovered_iff.mp hu).1
  obtain ⟨t, ht⟩ := hr.applies hrow hcall hua
  have hafter := resumeTask_runs locked c.shared.now hrow (DB.waiting_iff.mpr (.inr hst)) ht
  by_contra hu'
  rw [Bool.not_eq_false] at hu'
  obtain ⟨row', hrow', hst', -⟩ := DB.awaitsCall_iff.mp (DB.uncovered_iff.mp hu').1
  rw [hs] at hrow'
  cases Option.some.inj (hafter.symm.trans hrow')
  rcases Resume.apply_state ht with h | h | h <;> exact absurd (h.symm.trans hst') (by simp)

/-- A thread goes on taking care of a wait. -/
theorem Covering.tends (hu : c.shared.db.uncovered T w = true) (hu' : s.db.uncovered T w = true)
    (h : Tends th.job (keys th.past) T w) : Tends th.job (keys (⟨i, r⟩ :: th.past)) T w := by
  rcases h with ⟨hj, hsave⟩ | ⟨a, rfl, rfl, hdrop⟩
  · cases hk : i.key with
    | false =>
      rw [keys_cons_of_not hk]
      exact .inl ⟨hj, hsave⟩
    | true =>
      obtain ⟨a, hi, rfl, rfl⟩ := hsave.next hj (hr.fired hf).does hk
      rw [Covering.saves hok hf hi hu] at hu'
      cases hu'
  · refine .inr ⟨a, rfl, rfl, hdrop.cons fun hi => ?_⟩
    rw [Covering.resumes hr hok hf hi hu] at hu'
    cases hu'

/-- A thread that makes a task wait takes care of it. -/
theorem Covering.pauses (hu : c.shared.db.uncovered T w = false) (hu' : s.db.uncovered T w = true)
    {row : TaskRow} (hi : i = .db (.setTaskState t owner .awaitingApproval result))
    (hid : t.id = T) (hrow : c.shared.db.taskRow T = some row) (hh : DB.held t.id owner row = true)
    (hhead : headCall t = some w) : Tends th.job (keys (⟨i, r⟩ :: th.past)) T w := by
  subst hi
  have hfire := hr.fired hf
  have hany : c.shared.db.tasks.any (DB.held t.id owner) = true :=
    List.any_eq_true.mpr ⟨row, row_mem hrow, hh⟩
  have hlost : o.isLost = false := by
    simpa [coversSafely, hany] using guarded.exec hok hf
  rcases answer_told hf.answer hlost with rfl | ⟨locked, -, rfl⟩
  · rw [hu] at hu'
    cases hu'
  · rw [setTaskState_told hfire.keys hrow hh, keys_cons_key rfl]
    have hnil : keys th.past = [] := (hfire.does.pause_inv (.inr rfl)).1
    have hjob : ∀ last, th.job ≠ .maintenance last := by
      intro last hj
      rcases hfire.does.setTaskState_inv with ⟨_, h, -⟩ | ⟨_, _, _, _, h, -⟩ <;>
        exact absurd (h.symm.trans hj) (by simp)
    rw [hnil]
    exact .inl ⟨hjob, .inr ⟨t, owner, result, rfl, hid, hhead⟩⟩

/-- A thread that creates a command that waits takes care of it. -/
theorem Covering.creates (hu : c.shared.db.uncovered t.id "" = false)
    (hu' : s.db.uncovered t.id "" = true) (hi : i = .db (.createTask t)) (hk : t.kind = .command) :
    Tends th.job (keys (⟨i, r⟩ :: th.past)) t.id "" := by
  subst hi
  have hfire := hr.fired hf
  have hlost : o.isLost = false := by
    simpa [coversSafely, hk] using guarded.exec hok hf
  have hd := hfire.does
  rcases answer_told hf.answer hlost with rfl | ⟨locked, rfl, rfl⟩
  · rw [hu] at hu'
    cases hu'
  · rcases createTask_told locked c.shared.now c.shared.db t with hr' | hdb
    · rw [hr', keys_cons_key rfl]
      obtain ⟨hnil, hjob⟩ : keys th.past = [] ∧ ∀ last, th.job ≠ .maintenance last :=
        hfire.does.createTask_job
      rw [hnil]
      exact .inl ⟨hjob, .inl ⟨t, rfl, rfl, hk, rfl⟩⟩
    · rw [hdb, hu] at hu'
      cases hu'

/-- A thread that takes an approval away from a waiting task takes care of it. -/
theorem Covering.removes (hb : b ∈ c.shared.db.approvals) (hb' : b ∉ s.db.approvals)
    (hw : c.shared.db.awaitsCall b.taskID b.callID = true) :
    Tends th.job (keys (⟨i, r⟩ :: th.past)) b.taskID b.callID := by
  have hfire := hr.fired hf
  have hg := guarded.exec hok hf
  rcases hfire.answered.approval_stays hb with h | hq | ⟨hq, ht⟩ | ⟨tenant, user, hq⟩
  · exact absurd h hb'
  · -- It is used or spent. The one that has expired is not there any more.
    obtain rfl : i = .db (.deleteApproval b.approvalID) := hq
    have hcur := Covering.current hr hf.thread
    rcases hfire.does.deleteApproval_inv with ⟨tenant, user, x, a, hload, hid, hnone⟩ | ⟨a, ha, hid⟩
    · have hid : b.approvalID = a.approvalID := by
        rcases hid with hid | hid
        · exact hid
        · exact hid.trans (hr.lawful.1.loaded (hfire.known _ hload)).symm
      obtain ⟨htask, hcall⟩ := hcur.1 a ⟨tenant, user, x, hload⟩ b hb hid
      rw [keys_cons_key rfl]
      refine .inr ⟨a, htask.symm, hcall.symm, .inl ⟨tenant, user, x, b.approvalID, r,
        List.mem_cons_of_mem _ hload, List.mem_cons_self ..⟩, fun z hz => ?_⟩
      rcases List.mem_cons.mp hz with rfl | hz
      · exact id
      · exact hnone z hz a
    · exact absurd hid (hcur.2 a ha b hb)
  · -- It has expired.
    obtain rfl : i = .db .expireApprovals := hq
    have hany : (c.shared.db.approvals.any fun a =>
        a.expiresAt < c.shared.now && c.shared.db.awaitsCall a.taskID a.callID) = true :=
      List.any_eq_true.mpr ⟨b, hb, by simp [show b.expiresAt < c.shared.now from ht, hw]⟩
    have hlost : o.isLost = false := by simpa [coversSafely, hany] using hg
    rcases answer_told hf.answer hlost with rfl | ⟨locked, -, rfl⟩
    · exact absurd hb hb'
    · have hnil : keys th.past = [] := hfire.does.expireApprovals_inv
      rw [keys_cons_key rfl, hnil]
      refine .inr ⟨b, rfl, rfl, .inr ⟨_, List.mem_cons_self .., ?_⟩, fun z hz => ?_⟩
      · exact List.mem_filter.mpr ⟨hb, decide_eq_true ht⟩
      · rw [List.mem_singleton.mp hz]
        exact id
  · -- Its device is not removed.
    obtain rfl : i = .db (.deleteDevice tenant user b.deviceID) := hq
    have hany : (c.shared.db.approvals.any fun a =>
        a.deviceID = b.deviceID && c.shared.db.awaitsCall a.taskID a.callID) = true :=
      List.any_eq_true.mpr ⟨b, hb, by simp [hw]⟩
    simp only [coversSafely, hany, Bool.not_true, Bool.or_false, Bool.or_eq_true,
      Bool.not_eq_true'] at hg
    rcases hg with hfail | hnone
    · rw [answer_fails hf.answer hfail] at hb'
      exact absurd hb hb'
    · rcases answer_db hf.answer with ⟨-, rfl⟩ | ⟨locked, rfl, -⟩
      · exact absurd hb hb'
      · simp only [Query.exec, DB.deleteDevice, hnone] at hb'
        exact absurd hb hb'

/-- **Whenever a task waits for an approval there is none of**, it did so before, and the thread
that made the request goes on taking care of what it took care of; or that thread takes care of it
now. -/
theorem Covering.fire (hu' : s.db.uncovered T w = true) :
    (c.shared.db.uncovered T w = true ∧ (Tends th.job (keys th.past) T w →
      Tends th.job (keys (⟨i, r⟩ :: th.past)) T w)) ∨
    Tends th.job (keys (⟨i, r⟩ :: th.past)) T w := by
  cases hu : c.shared.db.uncovered T w with
  | true => exact .inl ⟨rfl, Covering.tends hr hok hf hu hu'⟩
  | false =>
    refine .inr ?_
    have hfire := hr.fired hf
    obtain ⟨hw', hnone⟩ := DB.uncovered_iff.mp hu'
    obtain ⟨row', hrow', hst, hcall⟩ := DB.awaitsCall_iff.mp hw'
    rcases hfire.waits hrow' (DB.waiting_iff.mpr (.inr hst)) with hrow |
      ⟨t, owner, result, row, hid, hq, hrow, hh, hkind, hhead⟩ | ⟨t, rfl, hq, rfl, hk, -⟩
    · have hw : c.shared.db.awaitsCall T w = true := DB.awaitsCall_iff.mpr ⟨row', hrow, hst, hcall⟩
      have hany : c.shared.db.approvals.any (covers T w) = true := by
        simpa [DB.uncovered, hw] using hu
      obtain ⟨b, hb, hcov⟩ := List.any_eq_true.mp hany
      obtain ⟨rfl, rfl⟩ := covers_iff.mp hcov
      exact Covering.removes hr hok hf hb (fun hb' => hnone b hb' ⟨rfl, rfl⟩) hw
    · rw [hst] at hq
      have hagent : row'.kind = .agent := by
        cases hk : row'.kind with
        | agent => rfl
        | command =>
          have hsound := hr.progress.1.1 T row hrow
          exact absurd (DB.held_iff.mp hh).2.2 (hsound.command (hkind.symm.trans hk)).2.2.1
      have hw : headCall row'.toTask = some w := by simpa [callOf, hagent] using hcall
      exact Covering.pauses hr hok hf hu hu' hq hid hrow hh (hhead ▸ hw)
    · obtain rfl : w = "" := by simpa [callOf, newTask, hk] using hcall.symm
      exact Covering.creates hr hok hf hu hu' hq hk

end

end Fire

/-- **Every task that waits for an approval has one.** In every run in which no pair of statements
is torn apart and no device is removed while a task waits for an approval on it: whenever no
operation is in the middle of its statements, a task in `awaiting_approval` has a stored approval of
its own for the call it waits on. -/
theorem approval_kept (h : Reaches P Covering c)
    (hidle : ∀ tid th, c.threads tid = some th → th.past = []) (hr : c.shared.db.taskRow T = some r)
    (hs : r.state = .awaitingApproval) :
    ∃ w, callOf r = some w ∧ ∃ a ∈ c.shared.db.approvals, a.taskID = T ∧ a.callID = w := by
  obtain ⟨w, hw⟩ := h.awaitsCall hr hs
  refine ⟨w, hw, ?_⟩
  by_contra hno
  have hu : c.shared.db.uncovered T w = true :=
    DB.uncovered_iff.mpr ⟨DB.awaitsCall_iff.mpr ⟨r, hr, hs, hw⟩, fun a ha hcov => hno ⟨a, ha, hcov⟩⟩
  have hserved := Reach.served body_spec h
    (D := fun s (x : UUID × String) => s.db.uncovered x.1 x.2 = true)
    (L := fun j past x => Tends j (keys past) x.1 x.2)
    (fun x hx => by cases hx)
    (fun j past js x hE hL => hE.quiet.untended hL)
    (fun c tid o th i k a s hr hok hf x hx => Covering.fire hr hok hf hx)
    (fun c v s x _ hv hx => World.step_db hv ▸ hx)
    (fun c p tid th x hok hth hp hx => hok tid th hth hp x.1 x.2 hx)
  obtain ⟨tid, th, hth, hL⟩ := hserved (T, w) hu
  rw [hidle tid th hth] at hL
  exact (quiet_nil (P := P)).untended hL

/-- No operation is in the middle of its statements. -/
def isIdle (c : Cfg) : Bool := !c.someThread fun past => !past.isEmpty

theorem Reaches.idle (h : Reaches P ok c) (hi : isIdle c = true) (hth : c.threads tid = some th) :
    th.past = [] := by
  by_contra hne
  have hsome := h.threads.someThread (p := fun past => !past.isEmpty) hth (by simpa using hne)
  simp [isIdle, hsome] at hi

/-- A task waits for an approval, and nothing is going on. -/
def hasApprovalWait (c : Cfg) : Bool :=
  isIdle c && c.shared.db.tasks.any fun r => r.state = .awaitingApproval

/-- A task that waits for a stored approval. -/
theorem approval_kept_run : ∃ c T r w, Reaches sample Covering c ∧
    (∀ tid th, c.threads tid = some th → th.past = []) ∧ c.shared.db.taskRow T = some r ∧
    r.state = .awaitingApproval ∧ callOf r = some w ∧
    ∃ a ∈ c.shared.db.approvals, a.taskID = T ∧ a.callID = w := by
  have hrun : ((machine sample).run (checked coversSafely) start
      (registering ++ commanding ++ storing)).any hasApprovalWait = true := by
    decide +kernel
  obtain ⟨c, hc, hwait⟩ := reaches_of_run hrun
  simp only [hasApprovalWait, Bool.and_eq_true] at hwait
  obtain ⟨hidle, hany⟩ := hwait
  obtain ⟨r, hmem, hst⟩ := List.any_eq_true.mp hany
  have hrow : c.shared.db.taskRow r.id = some r := (Reaches.keyed hc).tasks.row_eq hmem
  have hpast : ∀ tid th, c.threads tid = some th → th.past = [] :=
    fun tid th hth => Reaches.idle hc hidle hth
  obtain ⟨w, hw, ha⟩ := approval_kept hc hpast hrow (of_decide_eq_true hst)
  exact ⟨c, r.id, r, w, hc, hpast, hrow, of_decide_eq_true hst, hw, ha⟩

/-! ## What happens otherwise -/

/-- The device is removed (thread 6) while the task waits for an approval on it. -/
def removedRun : List Lbl :=
  registering ++ commanding ++ storing ++ [.request 0 (.removeDevice 1 "ann" 2)] ++ commits 6 1

/-- The task waits on, and its approval is gone with the device. -/
theorem approval_gone : ∃ c T r, Reachable sample c ∧
    (∀ tid th, c.threads tid = some th → th.past = []) ∧ c.shared.db.taskRow T = some r ∧
    r.state = .awaitingApproval ∧ c.shared.db.approvals = [] := by
  have hrun : (((machine sample).run anything start removedRun).any fun c =>
      hasApprovalWait c && c.shared.db.approvals.isEmpty) = true := by
    decide +kernel
  obtain ⟨c, hc, hgone⟩ := reachable_of_run hrun
  simp only [hasApprovalWait, Bool.and_eq_true, List.isEmpty_iff] at hgone
  obtain ⟨⟨hidle, hany⟩, hnone⟩ := hgone
  obtain ⟨r, hmem, hst⟩ := List.any_eq_true.mp hany
  have hrow : c.shared.db.taskRow r.id = some r := (Reaches.keyed hc).tasks.row_eq hmem
  exact ⟨c, r.id, r, hc, fun tid th hth => Reaches.idle hc hidle hth, hrow,
    of_decide_eq_true hst, hnone⟩

end Jarvis.Orchestrator
