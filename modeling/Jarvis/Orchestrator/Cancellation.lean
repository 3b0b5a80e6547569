import Jarvis.Orchestrator.Confirmations
import Jarvis.Orchestrator.Progress

/-!
# Cancelling a task

`CancelTask` cancels the confirmations a task has at that moment. A worker that has put the task to
`awaiting_confirmation` and not yet stored the confirmation, and a conversation that has settled one
and not yet carried it out, go on all the same (`midAction`).
-/

namespace Jarvis.Orchestrator

open Interleave Engine Table

variable {P : Params} {tr : List Ev} {e : Ev} {T : UUID}

/-! ## What is claimed -/

/-- `CancelTask` returned the task as cancelled. -/
def ReturnsCancelled (T : UUID) (e : Ev) : Prop :=
  ∃ tenant user t, e.act = did (.cancelTask tenant user T) (.ok t) ∧ t.state = .cancelled

/-- An action the task asked for is confirmed. -/
def Confirms (T : UUID) (e : Ev) : Prop :=
  ∃ id c c', e.before.db.confirmationRow id = some c ∧ c.taskID = some T ∧ c.state = .pending ∧
    e.after.db.confirmationRow id = some c' ∧ c'.state = .confirmed

/-- An action the task asked for is executed. -/
def Executes (T : UUID) (e : Ev) : Prop :=
  ∃ conf tenant user iid tool args, e.act.1 = .mcpCall (.confirmed conf) tenant user iid tool args ∧
    conf.taskID = some T

/-! ## What `CancelTask` does -/

section Rows

variable {locked : List ℕ} {now : Time} {db : DB} {tenant : UUID} {user : String}

/-- A task that can be cancelled is. -/
theorem cancelTask_cancels (hk : db.Keys)
    (h : db.tasks.any (DB.cancellable tenant user T) = true) :
    ∃ r, ((Query.cancelTask tenant user T).exec locked now db).2.taskRow T = some r ∧
      r.state = .cancelled := by
  obtain ⟨r, hr, hc⟩ := List.any_eq_true.mp h
  simp only [Query.exec, DB.cancelTask]
  split
  · rename_i hnone
    exact absurd hc (List.find?_eq_none.mp hnone r hr)
  · obtain rfl : r.id = T := (of_decide_eq_true hc).1
    have hrow : db.taskRow r.id = some r := hk.tasks.row_eq hr
    exact ⟨_, row_set_pos (fun _ => rfl) hrow hc, rfl⟩

/-- A task that is returned as cancelled is cancelled. -/
theorem cancelTask_ok (hk : db.Keys)
    (h : ((Query.cancelTask tenant user T).exec locked now db).1 = .ok t)
    (ht : t.state = .cancelled) :
    ∃ r, ((Query.cancelTask tenant user T).exec locked now db).2.taskRow T = some r ∧
      r.state = .cancelled := by
  cases hany : db.tasks.any (DB.cancellable tenant user T) with
  | true => exact cancelTask_cancels hk hany
  | false =>
    -- It had ended before.
    have hnone : db.tasks.find? (DB.cancellable tenant user T) = none := by
      simpa [List.find?_eq_none] using hany
    simp only [Query.exec, DB.cancelTask, hnone] at h ⊢
    cases hr : db.task tenant user T with
    | none =>
      rw [hr] at h
      cases h
    | some t₀ =>
      rw [hr] at h
      cases h
      obtain ⟨r, hfind, rfl⟩ := Option.map_eq_some_iff.mp hr
      have hid := List.find?_some hfind
      obtain rfl : r.id = T := (of_decide_eq_true hid).1
      exact ⟨r, hk.tasks.row_eq (List.mem_of_find?_eq_some hfind), ht⟩

/-- Cancelling a task leaves none of its confirmations pending. -/
theorem cancelTask_clears (h : db.tasks.any (DB.cancellable tenant user T) = true) {id : UUID}
    (hc : ((Query.cancelTask tenant user T).exec locked now db).2.confirmationRow id = some c)
    (ht : c.taskID = some T) : c.state ≠ .pending := by
  obtain ⟨r, hr, hcan⟩ := List.any_eq_true.mp h
  simp only [Query.exec, DB.cancelTask] at hc
  split at hc
  · rename_i hnone
    exact absurd hcan (List.find?_eq_none.mp hnone r hr)
  · obtain ⟨c₀, -, rfl⟩ := of_row_set hc fun _ => rfl
    split_ifs at ht ⊢ with hp
    · simp
    · intro hs
      exact hp (decide_eq_true ⟨ht, hs⟩)

end Rows

variable {c : Cfg} {past ks : Log}

/-- How a task comes to be cancelled: it was, or `CancelTask` has just done it. -/
theorem Fired.cancelled (h : Fired P c past e) (hr' : e.after.db.taskRow T = some r')
    (hs : r'.state = .cancelled) :
    (∃ r, e.before.db.taskRow T = some r ∧ r.state = .cancelled) ∨ ∃ tenant user,
      e.act.1 = .db (.cancelTask tenant user T) ∧
      e.before.db.tasks.any (DB.cancellable tenant user T) = true := by
  cases hr : e.before.db.taskRow T with
  | none =>
    rcases h.answered.no_task hr with hn | ⟨t, hq, -, ht⟩
    · rw [hn] at hr'
      cases hr'
    · rw [ht] at hr'
      cases hr'
      have hd := h.does
      rw [hq] at hd
      rcases hd.createTask_inv with ⟨-, hst, -⟩ | ⟨-, hst, -⟩ <;>
        exact absurd (hst.symm.trans hs) (by simp)
  | some r =>
    obtain ⟨r₁, hr₁, hstep⟩ := h.answered.task h.keys hr
    obtain rfl : r₁ = r' := Option.some.inj (hr₁.symm.trans hr')
    rcases hstep with rfl | ⟨q, hq, hstep⟩
    · exact .inl ⟨_, rfl, hs⟩
    · cases hstep with
      | same => exact .inl ⟨_, rfl, hs⟩
      | lease hh => cases hs
      | renew | save => exact .inl ⟨r, rfl, hs⟩
      | setState hh =>
        have hd := h.does
        rw [hq] at hd
        have hs : _ = TaskState.cancelled := hs
        rcases hd.setTaskState_inv with ⟨_, _, _, _, rfl, _⟩ | ⟨_, _, _, _, _,
          ⟨rfl, _⟩ | ⟨_, _, _, _, _, rfl, _⟩ | ⟨_, _, _, _, _, rfl | rfl, _⟩⟩ <;> cases hs
      | resume hw ht =>
        rcases Resume.apply_state ht with hst | hst | hst <;>
          exact absurd (hst.symm.trans hs) (by simp)
      | @cancel tenant user hc =>
        have hid := DB.taskRow_id hr
        rw [hid] at hq hc
        exact .inr ⟨tenant, user, hq, List.any_eq_true.mpr ⟨r, row_mem hr, hc⟩⟩

/-- A task that was returned as cancelled stays cancelled. -/
theorem Lawful.cancelled (h : Lawful P tr) (hx : x ∈ tr) (hc : ReturnsCancelled T x) :
    ∃ r, (dbOf tr).taskRow T = some r ∧ r.state = .cancelled := by
  induction h with
  | nil => cases hx
  | @cons y tr tail does answered db job ih =>
    rcases List.mem_cons.mp hx with rfl | hx
    · obtain ⟨tenant, user, t, hact, ht⟩ := hc
      obtain ⟨locked, hs, hok⟩ := answered.ok hact
      rw [dbOf, hs]
      exact cancelTask_ok (db ▸ tail.keys) hok ht
    · obtain ⟨r, hr, hst⟩ := ih hx
      obtain ⟨r', hr', hstep⟩ := answered.task (db ▸ tail.keys) (db ▸ hr)
      refine ⟨r', hr', ?_⟩
      rcases hstep with rfl | ⟨q, -, hstep⟩
      · exact hst
      · rw [hstep.ended (by rw [hst]; rfl)]
        exact hst

/-! ## The two points -/

/-- The thread has put the task to `awaiting_confirmation` and is about to store the confirmation,
or it has settled a confirmation of the task and is about to carry it out. -/
def midAction (T : UUID) (ks : Log) : Bool :=
  match ks with
  | [⟨.db (.setTaskState t _ .awaitingConfirmation _), .ok true⟩] =>
    t.id = T && t.conversationID.isSome
  | [⟨.db (.settle _ _ _ true), .ok conf⟩] => conf.taskID = some T
  | _ => false

/-- No task is cancelled while a thread is at one of these points. -/
def cancelsClear (c : Cfg) (i : Instr) (o : Oracle) : Bool :=
  match i with
  | .db (.cancelTask tenant user T) =>
    o.fails || !c.shared.db.tasks.any (DB.cancellable tenant user T) ||
      !c.someThread fun past => midAction T (keys past)
  | _ => true

/-- The runs in which no task is cancelled so. -/
abbrev Clear : Cfg → Lbl → Prop := guarded cancelsClear fun _ _ => True

/-- Only a worker at the first point stores a confirmation of a task. -/
theorem Does.createConfirmation_mid {j : Job} {c : Confirmation}
    (h : Does P j ks (.db (.createConfirmation c))) (ht : c.taskID = some T) :
    midAction T ks = true := by
  cases h with
  | free h => cases h
  | askConfirmation _ hn => exact absurd (hn.symm.trans ht) (by simp)
  | createConfirmation hc ht' =>
    obtain rfl := Option.some.inj (ht'.symm.trans ht)
    simp [midAction, withState, hc]

/-- Only a conversation at the second point carries an action out. -/
theorem Does.executes_mid (h : Does P j ks (.mcpCall (.confirmed conf) tenant user iid tool args))
    (ht : conf.taskID = some T) : midAction T ks = true := by
  cases h with
  | free h => cases h
  | runAction ha => simp [midAction, ht]

/-- How a thread comes to one of the points: it puts a running task to `awaiting_confirmation`, or
settles a pending confirmation of the task. -/
theorem midAction_cons (h : Answered e) (hk : e.before.db.Keys)
    (hm : midAction T (keys (e.act :: past)) = true) :
    midAction T (keys past) = true ∨
      (∃ r, e.after.db.taskRow T = some r ∧ r.state = .awaitingConfirmation) ∨
      ∃ id c, e.before.db.confirmationRow id = some c ∧ c.state = .pending ∧ c.taskID = some T ∧
        e.after.db.tasks = e.before.db.tasks := by
  obtain ⟨tid, job, ⟨i, a⟩, before, after⟩ := e
  cases hkey : i.key with
  | false =>
    rw [keys_cons_of_not hkey] at hm
    exact .inl hm
  | true =>
    rw [keys_cons_key hkey] at hm
    refine .inr ?_
    generalize keys past = ks at hm
    unfold midAction at hm
    split at hm
    · rename_i t owner result heq
      cases heq
      obtain ⟨locked, hs, hok⟩ := h.ok rfl
      obtain ⟨r, -, -, hr⟩ := setTaskState_ok hk hok
      simp only [Bool.and_eq_true, decide_eq_true_eq] at hm
      rw [hm.1] at hr
      exact .inl ⟨_, hs ▸ hr, rfl⟩
    · rename_i k id turn conf heq
      cases heq
      obtain ⟨locked, hs, hok⟩ := h.ok rfl
      obtain ⟨c, hc, hset, rfl, -⟩ := settle_ok hk.confirmations hok
      refine .inr ⟨id, c, hc, (of_decide_eq_true hset).2.2.1, of_decide_eq_true hm, ?_⟩
      rw [hs]
      exact Query.exec_same .tasks (by simp [Query.writes])
    · cases hm

/-- A step that makes a task cancelled finds no thread at one of the points. -/
theorem cancelsClear_spec {k : Answer i → Op (List Job)} (hr : Reaches P Clear c)
    (hok : Clear c (.exec tid o)) (hf : Fires (machine P) c tid o th i k a s)
    (hrow : s.db.taskRow T = some r) (hs : r.state = .cancelled) :
    (∃ r₀, c.shared.db.taskRow T = some r₀ ∧ r₀.state = .cancelled) ∨
      ∀ tid' th', c.threads tid' = some th' → midAction T (keys th'.past) = false := by
  rcases (hr.fired hf).cancelled hrow hs with h | ⟨tenant, user, hq, hc⟩
  · exact .inl h
  · obtain rfl : i = .db (.cancelTask tenant user T) := hq
    have hg := guarded.exec hok hf
    simp only [cancelsClear, hc, Bool.not_true, Bool.or_false, Bool.or_eq_true,
      Bool.not_eq_true'] at hg
    rcases hg with hfail | hnone
    · rw [answer_fails hf.answer hfail] at hrow
      exact .inl ⟨r, hrow, hs⟩
    · refine .inr fun tid' th' hth' => ?_
      by_contra hm
      have hsome := hr.threads.someThread (p := fun past => midAction T (keys past)) hth'
        (by simpa using hm)
      rw [hnone] at hsome
      cases hsome

/-- Nothing of a cancelled task is pending. -/
def DB.Cleared (db : DB) : Prop :=
  ∀ T r, db.taskRow T = some r → r.state = .cancelled → ∀ id c, db.confirmationRow id = some c →
    c.taskID = some T → c.state ≠ .pending

/-- A step keeps it so, if no thread stores a confirmation of a cancelled task. -/
theorem DB.Cleared.step (h : e.before.db.Cleared) (hf : Fired P c past e)
    (hmid : ∀ T r, e.before.db.taskRow T = some r → r.state = .cancelled →
      midAction T (keys past) = false) : e.after.db.Cleared := by
  intro T r' hr' hs id conf' hconf' htask hp
  cases hconf : e.before.db.confirmationRow id with
  | none =>
    -- It is new: its worker was at the first point, so the task was not cancelled, and the same
    -- statement has not cancelled it.
    rcases hf.answered.no_confirmation hconf with hn | ⟨conf, hq, -, -, hnew⟩
    · rw [hn] at hconf'
      cases hconf'
    · obtain rfl := Option.some.inj (hnew.symm.trans hconf')
      rcases hf.cancelled hr' hs with ⟨r, hr, hcan⟩ | ⟨tenant, user, hq', -⟩
      · have hd := hf.does
        rw [hq] at hd
        have hm := hd.createConfirmation_mid (T := T) htask
        rw [hmid T r hr hcan] at hm
        cases hm
      · rw [hq] at hq'
        cases hq'
  | some conf =>
    rcases hf.cancelled hr' hs with ⟨r, hr, hcan⟩ | ⟨tenant, user, hq, hany⟩
    · obtain ⟨conf₁, hconf₁, hstep⟩ := hf.answered.confirmation hconf
      obtain rfl := Option.some.inj (hconf₁.symm.trans hconf')
      rcases hstep with rfl | ⟨q, -, hstep⟩
      · exact h T r hr hcan id _ hconf htask hp
      · exact h T r hr hcan id conf hconf (hstep.taskID_eq ▸ htask) (hstep.pending hp)
    · rcases hf.answered.effect with heq | ⟨q, locked, hq', heq⟩
      · -- Without an effect the task was cancelled before.
        rw [heq] at hr' hconf'
        exact h T r' hr' hs id conf' hconf' htask hp
      · obtain rfl : q = .cancelTask tenant user T := Instr.db.inj (hq'.symm.trans hq)
        rw [heq] at hconf'
        exact cancelTask_clears hany hconf' htask hp

/-- **A cancelled task stays so.** In every run that cancels no task while a thread is about to
store a confirmation of it or to carry one out: once `CancelTask` has returned a task as cancelled,
no action it asked for is confirmed or executed. -/
theorem cancelled_stays (h : Reaches P Clear c) :
    c.trace.Pairwise fun e x => ∀ T, ReturnsCancelled T x → ¬ Confirms T e ∧ ¬ Executes T e := by
  refine (Reach.joint_inv body_spec h
    (G := fun s tr => s.db.Cleared ∧
      tr.Pairwise fun e x => ∀ T, ReturnsCancelled T x → ¬ Confirms T e ∧ ¬ Executes T e)
    (L := fun s _ _ _ past => ∀ T r, s.db.taskRow T = some r → r.state = .cancelled →
      midAction T (keys past) = false) ?_ ?_ ?_ ?_ ?_ ?_ ?_ ?_).1.2
  · exact ⟨fun T r hr => (by cases hr), .nil⟩
  · exact fun s tr tid j _ _ T r _ _ => rfl
  · exact fun s tr p tid j _ _ T r _ _ => rfl
  · rintro c tid o th i k a s hr hok hf ⟨hG, hpw⟩ hL
    have hfire := Reaches.fired hr hf
    refine ⟨hG.step hfire hL, .cons (fun x hx T hx' => ?_) hpw⟩
    obtain ⟨hl, hdb⟩ := Reaches.lawful hr
    obtain ⟨r, hrow, hs⟩ := hl.cancelled hx hx'
    rw [← hdb] at hrow
    constructor
    · rintro ⟨id, conf, conf', hconf, htask, hp, -⟩
      exact hG T r hrow hs id conf hconf htask hp
    · rintro ⟨conf, tenant, user, iid, tool, args, hact, htask⟩
      have hd := hfire.does
      rw [hact] at hd
      have hm := hd.executes_mid htask
      rw [hL T r hrow hs] at hm
      cases hm
  · exact fun c tid o th i k a s js _ _ _ _ _ _ tid' j _ T r _ _ => rfl
  · rintro c tid o th i k a s hr hok hf ⟨hG, -⟩ hL T r' hr' hs
    have hfire := Reaches.fired hr hf
    by_contra hm
    rw [Bool.not_eq_false] at hm
    rcases midAction_cons hfire.answered hfire.keys hm with hold | ⟨r, hr₁, hst⟩ |
      ⟨id, conf, hconf, hp, htask, htasks⟩
    · rcases cancelsClear_spec hr hok hf hr' hs with ⟨r₀, hr₀, hs₀⟩ | hnone
      · rw [hL T r₀ hr₀ hs₀] at hold
        cases hold
      · rw [hnone _ _ hf.thread] at hold
        cases hold
    · cases Option.some.inj (hr₁.symm.trans hr')
      rw [hs] at hst
      cases hst
    · have hrow : c.shared.db.taskRow T = some r' := by
        rw [DB.taskRow, show s.db.tasks = _ from htasks] at hr'
        exact hr'
      exact hG T r' hrow hs id conf hconf htask hp
  · rintro c tid o th i k a s tid' th' hr hok hf - - hne hth' hL T r' hr' hs
    rcases cancelsClear_spec hr hok hf hr' hs with ⟨r₀, hr₀, hs₀⟩ | hnone
    · exact hL T r₀ hr₀ hs₀
    · exact hnone _ _ hth'
  · rintro c v s - hv hG
    have hdb : s.db = c.shared.db := World.step_db hv
    rw [hdb]
    exact ⟨hG, fun tid j past hL => hL⟩

/-- The task is cancelled once its confirmation 11 is stored (thread 9). The user hears the question
all the same (thread 10), and agrees (thread 11). -/
def cancelledRun : List Lbl :=
  opening ++ starting ++ working ++ pausing ++
    [.request 0 (.cancelTask 1 "ann" 9)] ++ commits 9 3 ++
  [.request 0 (.ackEvent 5 1 2)] ++ commits 10 2 ++
  [.request 0 (.callTool 5 "c2" "confirm_action"
    "\x7b\"confirmation_id\":\"00000000-0000-0000-0000-00000000000b\"\x7d" 3)] ++ commits 11 6

/-- The event returned a task as cancelled. -/
def returnsCancelled (e : Ev) : Option UUID :=
  match e.act with
  | ⟨.db (.cancelTask _ _ T), .ok t⟩ => if t.state = .cancelled then some T else none
  | _ => none

theorem returnsCancelled_spec (h : returnsCancelled e = some T) : ReturnsCancelled T e := by
  unfold returnsCancelled at h
  split at h
  · rename_i tenant user T' t hact
    split_ifs at h with ht
    cases h
    exact ⟨tenant, user, t, hact, ht⟩
  · cases h

/-- The event is an attempt to settle a confirmation. -/
def settles (id : UUID) (e : Ev) : Bool :=
  match e.act.1 with
  | .db (.settle _ id' _ true) => id' = id
  | _ => false

/-- In that run the user agrees, and the action is neither confirmed nor executed. -/
theorem cancelled_stays_run : ∃ c x, Reaches sample Clear c ∧
    x ∈ c.trace ∧ ReturnsCancelled 9 x ∧ c.trace.any (settles 11) = true ∧
    c.trace.Pairwise fun e x => ∀ T, ReturnsCancelled T x → ¬ Confirms T e ∧ ¬ Executes T e := by
  have hrun : (((machine sample).run (checked cancelsClear) start cancelledRun).any fun c =>
      (c.trace.any fun x => returnsCancelled x = some 9) && c.trace.any (settles 11)) = true := by
    decide +kernel
  obtain ⟨c, hc, hany⟩ := reaches_of_run hrun
  obtain ⟨hany, hsettles⟩ := Bool.and_eq_true_iff.mp hany
  obtain ⟨x, hx, hx'⟩ := List.any_eq_true.mp hany
  exact ⟨c, x, hc, hx, returnsCancelled_spec (of_decide_eq_true hx'), hsettles, cancelled_stays hc⟩

/-! ## What happens otherwise -/

/-- The task is cancelled (thread 8) between the worker's two statements (thread 7). The user is
asked for confirmation 11 all the same, hears the question in turn 2 (thread 10), and agrees in turn
3 (thread 11). -/
def racingRun : List Lbl :=
  opening ++ starting ++ working ++ commits 7 1 ++
  [.request 0 (.cancelTask 1 "ann" 9)] ++ commits 8 3 ++
  [.exec 7 (.uuid 11), .exec 7 (.time 0)] ++ commits 7 1 ++ [.exec 7 .through] ++ commits 7 1 ++
  [.request 0 (.ackEvent 5 2 2)] ++ commits 10 2 ++
  [.request 0 (.callTool 5 "c2" "confirm_action"
    "\x7b\"confirmation_id\":\"00000000-0000-0000-0000-00000000000b\"\x7d" 3)] ++ commits 11 4 ++
  [.exec 11 .through, .exec 11 (.mcp (.ok ⟨[], "", false, false⟩))]

/-- The task whose action the event executes. -/
def executes (e : Ev) : Option UUID :=
  match e.act.1 with
  | .mcpCall (.confirmed conf) .. => conf.taskID
  | _ => none

theorem executes_spec (h : executes e = some T) : Executes T e := by
  unfold executes at h
  split at h
  · rename_i conf tenant user iid tool args hact
    exact ⟨conf, tenant, user, iid, tool, args, hact, h⟩
  · cases h

/-- The last event executes an action of the task, and an earlier one returned it as cancelled. -/
def executesCancelled (T : UUID) (c : Cfg) : Bool :=
  match c.trace with
  | [] => false
  | e :: past => executes e = some T && past.any fun x => returnsCancelled x = some T

/-- The action is executed after its task was returned as cancelled. -/
theorem cancelled_then_executed : ∃ c e past x, Reachable sample c ∧ c.trace = e :: past ∧
    x ∈ past ∧ ReturnsCancelled 9 x ∧ Executes 9 e := by
  have hrun : ((machine sample).run anything start racingRun).any (executesCancelled 9) = true := by
    decide +kernel
  obtain ⟨c, hc, hany⟩ := reachable_of_run hrun
  unfold executesCancelled at hany
  split at hany
  · cases hany
  · rename_i e past htr
    simp only [Bool.and_eq_true, decide_eq_true_eq] at hany
    obtain ⟨x, hx, hx'⟩ := List.any_eq_true.mp hany.2
    exact ⟨c, e, past, x, hc, htr, hx, returnsCancelled_spec (of_decide_eq_true hx'),
      executes_spec hany.1⟩

end Jarvis.Orchestrator
