import Jarvis.Orchestrator.Cancellation

/-!
# Sending approved commands

An approval is a row of its own: `SubmitApproval` finds it by its id and does not look at the state
of its task. So what is true of the row when a task starts to wait has to stay true of it as long as
the row, or a request that has read it, is there.
-/

namespace Jarvis.Orchestrator

open Interleave Engine Table

variable {P : Params} {tr : List Ev} {e : Ev} {T : UUID}

/-! ## What statements do -/

/-- The task waits for an approval. -/
def DB.Awaits (db : DB) (T : UUID) : Prop :=
  ∃ r, db.taskRow T = some r ∧ r.state = .awaitingApproval

section Rows

variable {locked : List ℕ} {now : Time} {db : DB}

/-- What `Approval` returns is stored, up to the payload. -/
theorem approval_ok (h : ((Query.approval tenant user x).exec locked now db).1 = .ok a) :
    ∃ b ∈ db.approvals, b.approvalID = x ∧ a = { b with payload := "" } := by
  cases ha : db.approval tenant user x now with
  | none =>
    simp only [Query.exec, ha] at h
    cases h
  | some a' =>
    simp only [Query.exec, ha] at h
    cases h
    obtain ⟨b, hfind, rfl⟩ := Option.map_eq_some_iff.mp ha
    have hb := List.find?_some hfind
    simp only [Bool.and_eq_true, decide_eq_true_eq] at hb
    exact ⟨b, List.mem_of_find?_eq_some hfind, hb.1.1, rfl⟩

/-- A task that was created has its row. -/
theorem createTask_ok (h : ((Query.createTask t).exec locked now db).1 = .ok ()) :
    ((Query.createTask t).exec locked now db).2.taskRow t.id = some (newTask now t) := by
  simp only [Query.exec, DB.createTask] at h ⊢
  split_ifs at h ⊢ with hc
  simp only [Bool.or_eq_true, not_or, Bool.not_eq_true, Option.isSome_eq_false_iff,
    Option.isNone_iff_eq_none] at hc
  rw [DB.taskRow, row_insert, show row _ t.id db.tasks = _ from hc.1, Option.none_or]
  exact if_pos rfl

end Rows

variable {a : DeviceApproval} {c : Cfg} {past ks : Log} {x : Exchange}

/-- What a thread read under an id has that id. -/
theorem Lawful.loaded (h : Lawful P tr) {tenant : UUID} {user x : String}
    (he : ∃ e ∈ tr, e.act = did (.approval tenant user x) (.ok a)) : a.approvalID = x := by
  obtain ⟨e, he, hact⟩ := he
  obtain ⟨locked, -, hok⟩ := (h.answered he).ok hact
  obtain ⟨b, -, hid, rfl⟩ := approval_ok hok
  exact hid

/-- A task that waits for an approval is left alone, resumed or cancelled. -/
theorem Fired.approvalWait (h : Fired P c past e) (hr : e.before.db.taskRow T = some r)
    (hs : r.state = .awaitingApproval) :
    e.after.db.taskRow T = some r ∨
    (∃ u, e.act.1 = .db (.resumeTask T u) ∧ (u.apply r.toTask).isSome = true) ∨
    ∃ tenant user, e.act.1 = .db (.cancelTask tenant user T) ∧
      DB.cancellable tenant user T r = true := by
  obtain ⟨r', hr', hstep⟩ := h.answered.task h.keys hr
  have hid := DB.taskRow_id hr
  have running : ∀ {id owner}, DB.held id owner r = true → False := fun hh =>
    absurd ((DB.held_iff.mp hh).2.2.symm.trans hs) (by simp)
  rcases hstep with rfl | ⟨q, hq, hstep⟩
  · exact .inl hr'
  · cases hstep with
    | same => exact .inl hr'
    | lease hrun => simp [DB.runnable, hs] at hrun
    | renew hh | save hh | setState hh => exact (running hh).elim
    | resume hw ht => exact .inr (.inl ⟨_, hid ▸ hq, by simp [ht]⟩)
    | cancel hc => exact .inr (.inr ⟨_, _, hid ▸ hq, hid ▸ hc⟩)

/-! ## Approvals on their way -/

/-- The approval a `SubmitApproval` has read and is about to send. -/
def unsent (ks : Log) : Option DeviceApproval :=
  match ks with
  | [⟨.db (.approval ..), .ok a⟩] => some a
  | [⟨.db (.deviceByID _), .ok _⟩, ⟨.db (.approval ..), .ok a⟩] => some a
  | [⟨.deviceClient _ (some _), .ok _⟩, ⟨.db (.deviceByID _), .ok _⟩,
      ⟨.db (.approval ..), .ok a⟩] => some a
  | _ => none

/-- The task whose approval a thread is about to store. -/
def saving (ks : Log) : Option UUID :=
  match ks with
  | [⟨.db (.createTask t), .ok _⟩] => if t.kind = .command then some t.id else none
  | [⟨.db (.setTaskState t _ .awaitingApproval _), .ok true⟩] => some t.id
  | _ => none

/-- The task has no approval: none is stored, about to be stored, or about to be sent. -/
def spare (c : Cfg) (T : UUID) : Bool :=
  !c.shared.db.approvals.any (·.taskID = T) &&
    !c.someThread fun past => (unsent (keys past)).any (·.taskID = T) || saving (keys past) = some T

/-- A task leaves `awaiting_approval` only when it has no approval. -/
def endsWaitsClear (c : Cfg) (i : Instr) (o : Oracle) : Bool :=
  match i with
  | .db (.cancelTask tenant user T) =>
    o.fails || !((c.shared.db.taskRow T).any fun r =>
      r.state = .awaitingApproval && DB.cancellable tenant user T r) || spare c T
  | .db (.resumeTask T u) =>
    o.fails || !((c.shared.db.taskRow T).any fun r =>
      r.state = .awaitingApproval && (u.apply r.toTask).isSome) || spare c T
  | _ => true

/-- The runs in which tasks leave `awaiting_approval` only so. -/
abbrev EndsClear : Cfg → Lbl → Prop := guarded endsWaitsClear fun _ _ => True

theorem Does.send_inv (h : Does P j ks (.deviceSend d command (some ap))) : ∃ tenant user a,
      ks = [⟨.deviceClient d (some ap), .ok ()⟩, did (.deviceByID a.deviceID) (.ok d),
        did (.approval tenant user ap.approvalID) (.ok a)] := by
  cases h with
  | free h => cases h
  | send => exact ⟨_, _, _, rfl⟩

theorem Does.saveApproval_inv (h : Does P j ks (.db (.saveApproval a))) :
    saving ks = some a.taskID := by
  cases h with
  | free h => cases h
  | saveVoiceApproval hk ht => simp [saving, hk, ht]
  | saveTaskApproval ht => simp [saving, ht, withState]

/-- How an approval comes to be about to be sent: it was, or it has just been read. -/
theorem unsent_cons (h : unsent (keys (x :: past)) = some a) :
    unsent (keys past) = some a ∨ ∃ tenant user y, x = did (.approval tenant user y) (.ok a) := by
  obtain ⟨i, r⟩ := x
  cases hkey : i.key with
  | false =>
    rw [keys_cons_of_not hkey] at h
    exact .inl h
  | true =>
    rw [keys_cons_key hkey] at h
    generalize keys past = ks at h ⊢
    unfold unsent at h
    split at h
    · rename_i tenant user y a' heq
      cases heq
      cases h
      exact .inr ⟨_, _, _, rfl⟩
    · rename_i heq
      cases heq
      exact .inl h
    · rename_i heq
      cases heq
      exact .inl h
    · cases h

/-- How an approval comes to be about to be stored. -/
theorem saving_cons (h : saving (keys (x :: past)) = some T) :
    saving (keys past) = some T ∨
    (∃ t, x = did (.createTask t) (.ok ()) ∧ t.kind = .command ∧ t.id = T) ∨
    ∃ t owner result, x = did (.setTaskState t owner .awaitingApproval result) (.ok true) ∧
      t.id = T := by
  obtain ⟨i, r⟩ := x
  cases hkey : i.key with
  | false =>
    rw [keys_cons_of_not hkey] at h
    exact .inl h
  | true =>
    rw [keys_cons_key hkey] at h
    generalize keys past = ks at h
    refine .inr ?_
    unfold saving at h
    split at h
    · rename_i t r' heq
      cases heq
      split_ifs at h with hk
      exact .inl ⟨t, rfl, hk, Option.some.inj h⟩
    · rename_i t owner result heq
      cases heq
      exact .inr ⟨t, owner, result, rfl, Option.some.inj h⟩
    · cases h

section Fire

variable {tid : ℕ} {o : Oracle} {th : Thread Instr Answer Job} {i : Instr}
  {k : Answer i → Op (List Job)} {a : Answer i} {s : Shared}

/-- A task that has an approval goes on waiting for it. -/
theorem EndsClear.stays (hr : Reaches P EndsClear c) (hok : EndsClear c (.exec tid o))
    (hf : Fires (machine P) c tid o th i k a s) (hn : spare c T = false)
    (hw : c.shared.db.Awaits T) : s.db.Awaits T := by
  obtain ⟨r, hrow, hst⟩ := hw
  have hg := guarded.exec hok hf
  rcases (hr.fired hf).approvalWait hrow hst with hrow' | ⟨u, hq, hu⟩ | ⟨tenant, user, hq, hc⟩
  · exact ⟨r, hrow', hst⟩
  · obtain rfl : i = .db (.resumeTask T u) := hq
    have hfail : o.fails = true := by simpa [endsWaitsClear, hrow, hst, hu, hn] using hg
    exact ⟨r, answer_fails hf.answer hfail ▸ hrow, hst⟩
  · obtain rfl : i = .db (.cancelTask tenant user T) := hq
    have hfail : o.fails = true := by simpa [endsWaitsClear, hrow, hst, hc, hn] using hg
    exact ⟨r, answer_fails hf.answer hfail ▸ hrow, hst⟩

theorem spare_of_mem {a : DeviceApproval} (h : a ∈ c.shared.db.approvals) :
    spare c a.taskID = false := by
  have hany : c.shared.db.approvals.any (·.taskID = a.taskID) = true :=
    List.any_eq_true.mpr ⟨a, h, by simp⟩
  simp [spare, hany]

theorem spare_of_thread (hr : Reaches P EndsClear c) (hth : c.threads tid' = some th')
    (h : (∃ a, unsent (keys th'.past) = some a ∧ a.taskID = T) ∨ saving (keys th'.past) = some T) :
    spare c T = false := by
  have hsome := hr.threads.someThread (p := fun past =>
    (unsent (keys past)).any (·.taskID = T) || saving (keys past) = some T) hth (by
      rcases h with ⟨a, ha, rfl⟩ | h
      · simp [ha]
      · simp [h])
  simp [spare, hsome]

end Fire

/-- The task of every approval a thread is about to send or to store waits for it. -/
def Backed (db : DB) (ks : Log) : Prop :=
  (∀ a, unsent ks = some a → db.Awaits a.taskID) ∧ ∀ T, saving ks = some T → db.Awaits T

/-- A thread that reads an approval or puts a task to `awaiting_approval` finds the task waiting. -/
theorem Backed.cons (hf : Fired P c past e)
    (happ : ∀ a ∈ e.before.db.approvals, e.before.db.Awaits a.taskID)
    (h : Backed e.after.db (keys past)) : Backed e.after.db (keys (e.act :: past)) := by
  constructor
  · intro a ha
    rcases unsent_cons ha with ha | ⟨tenant, user, y, hact⟩
    · exact h.1 a ha
    · obtain ⟨locked, hs, hok⟩ := hf.answered.ok hact
      obtain ⟨b, hb, -, rfl⟩ := approval_ok hok
      have hsame : e.after.db = e.before.db := by rw [hs, Query.exec]
      rw [hsame]
      exact happ b hb
  · intro T hT
    rcases saving_cons hT with hT | ⟨t, hact, hk, rfl⟩ | ⟨t, owner, result, hact, rfl⟩
    · exact h.2 T hT
    · obtain ⟨locked, hs, hok⟩ := hf.answered.ok hact
      have hd := hf.does
      rw [congrArg (·.1) hact] at hd
      rcases hd.createTask_inv with ⟨hk', -⟩ | ⟨-, hst, -⟩
      · exact absurd (hk.symm.trans hk') (by simp)
      · exact ⟨_, hs ▸ createTask_ok hok, hst⟩
    · obtain ⟨locked, hs, hok⟩ := hf.answered.ok hact
      obtain ⟨r, -, -, hrow⟩ := setTaskState_ok hf.keys hok
      exact ⟨_, hs ▸ hrow, rfl⟩

/-! ## What is sent -/

/-- With this event a `SubmitApproval` that has read the approval sends it to a device. -/
def SendsApproval (a : DeviceApproval) (e : Ev) (past : List Ev) : Prop :=
  ∃ d command ap tenant user, e.act.1 = .deviceSend d command (some ap) ∧
    did (.approval tenant user ap.approvalID) (.ok a) ∈ pastOf e.tid past

/-- **Approvals are sent only for waiting tasks.** In every run in which no task leaves
`awaiting_approval` while it has an approval: a command goes to a device with an approval only from
a thread that has read that approval, while its task is in `awaiting_approval`, and so never after
`CancelTask` has returned the task as cancelled. -/
theorem approval_sent_waiting (h : Reaches P EndsClear c) {past : List Ev}
    (hs : e :: past <:+ c.trace) :
    (∀ d command ap, e.act.1 = .deviceSend d command (some ap) → ∃ a, SendsApproval a e past) ∧
    ∀ a, SendsApproval a e past →
      e.before.db.Awaits a.taskID ∧ ∀ x ∈ past, ¬ ReturnsCancelled a.taskID x := by
  revert e past
  refine (Reach.joint_inv body_spec h
    (G := fun s tr => (∀ a ∈ s.db.approvals, s.db.Awaits a.taskID) ∧ ∀ {e past}, e :: past <:+ tr →
      (∀ d command ap, e.act.1 = .deviceSend d command (some ap) → ∃ a, SendsApproval a e past) ∧
      ∀ a, SendsApproval a e past →
        e.before.db.Awaits a.taskID ∧ ∀ x ∈ past, ¬ ReturnsCancelled a.taskID x)
    (L := fun s _ _ _ past => Backed s.db (keys past)) ?_ ?_ ?_ ?_ ?_ ?_ ?_ ?_).1.2
  · exact ⟨fun a ha => (by cases ha), fun hs => (by simp at hs)⟩
  · exact fun s tr tid j _ _ => ⟨fun a ha => (by cases ha), fun T hT => (by cases hT)⟩
  · exact fun s tr p tid j _ _ => ⟨fun a ha => (by cases ha), fun T hT => (by cases hT)⟩
  · rintro c tid o th i k r s hr hok hf ⟨hG, htr⟩ hL
    have hfire := Reaches.fired hr hf
    refine ⟨fun a ha => ?_, fun {e past} hs => ?_⟩
    · rcases hfire.answered.approval ha with ha' | ⟨hq, -⟩
      · exact EndsClear.stays hr hok hf (spare_of_mem ha') (hG a ha')
      · obtain rfl : i = .db (.saveApproval a) := hq
        have hsaving := hfire.does.saveApproval_inv
        exact EndsClear.stays hr hok hf (spare_of_thread hr hf.thread (.inr hsaving))
          (hL.2 _ hsaving)
    · rcases List.suffix_cons_iff.mp hs with heq | hs
      · obtain ⟨rfl, rfl⟩ := List.cons.inj heq
        have hpast : pastOf tid c.trace = th.past :=
          ((Reaches.threads hr).past_eq _ _ hf.thread).symm
        constructor
        · rintro d command ap rfl
          obtain ⟨tenant, user, a, hks⟩ := hfire.does.send_inv
          refine ⟨a, d, command, ap, tenant, user, rfl, ?_⟩
          rw [hpast]
          have hmem : did (.approval tenant user ap.approvalID) (.ok a) ∈ keys th.past := by
            rw [show keys th.past = _ from hks]
            simp
          exact (List.mem_filter.mp hmem).1
        · rintro a ⟨d, command, ap, tenant, user, rfl, ha⟩
          rw [hpast] at ha
          have hmem : did (.approval tenant user ap.approvalID) (.ok a) ∈ keys th.past :=
            List.mem_filter.mpr ⟨ha, rfl⟩
          obtain ⟨tenant', user', a', hks⟩ := hfire.does.send_inv
          have hunsent : unsent (keys th.past) = some a := by
            rw [show keys th.past = _ from hks] at hmem ⊢
            obtain ⟨-, rfl⟩ : (tenant = tenant' ∧ user = user') ∧ a = a' := by simpa using hmem
            rfl
          have hw := hL.1 a hunsent
          refine ⟨hw, fun x hx hx' => ?_⟩
          obtain ⟨hl, hdb⟩ := Reaches.lawful hr
          obtain ⟨r, hrow, hcan⟩ := hl.cancelled hx hx'
          obtain ⟨r', hrow', hwait⟩ := hw
          rw [hdb] at hrow'
          cases Option.some.inj (hrow.symm.trans hrow')
          exact absurd (hcan.symm.trans hwait) (by simp)
      · exact htr hs
  · exact fun c tid o th i k a s js _ _ _ _ _ _ tid' j _ =>
      ⟨fun a ha => (by cases ha), fun T hT => (by cases hT)⟩
  · rintro c tid o th i k r s hr hok hf ⟨hG, -⟩ hL
    have hfire := Reaches.fired hr hf
    refine Backed.cons hfire hG ⟨fun a ha => ?_, fun T hT => ?_⟩
    · exact EndsClear.stays hr hok hf (spare_of_thread hr hf.thread (.inl ⟨a, ha, rfl⟩)) (hL.1 a ha)
    · exact EndsClear.stays hr hok hf (spare_of_thread hr hf.thread (.inr hT)) (hL.2 T hT)
  · rintro c tid o th i k r s tid' th' hr hok hf - - hne hth' hL
    refine ⟨fun a ha => ?_, fun T hT => ?_⟩
    · exact EndsClear.stays hr hok hf (spare_of_thread hr hth' (.inl ⟨a, ha, rfl⟩)) (hL.1 a ha)
    · exact EndsClear.stays hr hok hf (spare_of_thread hr hth' (.inr hT)) (hL.2 T hT)
  · rintro c v s - hv hG
    have hdb : s.db = c.shared.db := World.step_db hv
    rw [hdb]
    exact ⟨hG, fun tid j past hL => hL⟩

/-- A process starts, and its threads 0, 1 and 2 with it; a user registers device 2 (thread 3) and
opens conversation 5 (thread 4). -/
def registering : List Lbl :=
  [.boot, .request 0 (.registerDevice 1 "ann" "mac" "" "" ⟨"", "", ""⟩),
    .exec 3 (.uuid 2)] ++ commits 3 1 ++
  [.exec 3 (.outcome (.ok ()))] ++ commits 3 1 ++
  [.request 0 (.openConversation 1 "ann" "s" .openAI "")] ++ commits 4 1 ++
  [.exec 4 (.tools (some [])), .exec 4 (.uuid 5)] ++ commits 4 2

/-- The assistant runs a command there (thread 5): the device asks for approval "a", and task 9
waits for it. -/
def commanding : List Lbl :=
  [.request 0 (.callTool 5 "c1" "run_on_computer" "\x7b\"program\":\"/bin/ls\"\x7d" 1)] ++
    commits 5 4 ++
  [.exec 5 (.client (.ok ())), .exec 5 .through, .env (.deliver 0 (.issue ⟨"a", "", none⟩)),
    .exec 5 .through, .exec 5 (.uuid 9), .exec 5 (.time 0)] ++ commits 5 1

/-- The approval is stored. -/
def storing : List Lbl :=
  [.exec 5 (.time 0)] ++ commits 5 2 ++ [.exec 5 .through] ++ commits 5 1

/-- Someone approves, as thread `tid`, and the command is sent. -/
def approving (tid : ℕ) : List Lbl :=
  [.request 0 (.submitApproval 1 "ann" "a" "phone" "sig")] ++ commits tid 2 ++
  [.exec tid (.client (.ok ())), .exec tid .through]

/-- The last event sends a command with an approval its thread has read. -/
def sendsApproval (p : DeviceApproval → List Ev → Bool) (c : Cfg) : Bool :=
  match c.trace with
  | ⟨tid, _, ⟨.deviceSend _ _ (some ap), _⟩, _, _⟩ :: past =>
    past.any fun x => decide (x.tid = tid) && match x.act with
      | ⟨.db (.approval _ _ y), .ok a⟩ => decide (y = ap.approvalID) && p a past
      | _ => false
  | _ => false

theorem sendsApproval_spec {p : DeviceApproval → List Ev → Bool} (h : sendsApproval p c = true) :
    ∃ e past a, c.trace = e :: past ∧ SendsApproval a e past ∧ p a past = true := by
  unfold sendsApproval at h
  split at h
  · rename_i tid job d command ap a before after past htr
    obtain ⟨x, hx, hx'⟩ := List.any_eq_true.mp h
    simp only [Bool.and_eq_true, decide_eq_true_eq] at hx'
    obtain ⟨htid, hx'⟩ := hx'
    split at hx'
    · rename_i tenant user y b hact
      simp only [Bool.and_eq_true, decide_eq_true_eq] at hx'
      obtain ⟨rfl, hp⟩ := hx'
      exact ⟨_, past, b, htr, ⟨d, command, ap, tenant, user, rfl,
        mem_pastOf.mpr ⟨x, hx, htid, hact⟩⟩, hp⟩
    · cases hx'
  · cases h

/-- A person approves the command while its task waits. -/
theorem approval_sent_waiting_run : ∃ c e past a, Reaches sample EndsClear c ∧
    e :: past <:+ c.trace ∧ SendsApproval a e past ∧ e.before.db.Awaits a.taskID ∧
    ∀ x ∈ past, ¬ ReturnsCancelled a.taskID x := by
  have hrun : (((machine sample).run (checked endsWaitsClear) start
      (registering ++ commanding ++ storing ++ approving 6)).any
        (sendsApproval fun _ _ => true)) = true := by
    decide +kernel
  obtain ⟨c, hc, hsends⟩ := reaches_of_run hrun
  obtain ⟨e, past, a, htr, ha, -⟩ := sendsApproval_spec hsends
  have hs : e :: past <:+ c.trace := htr ▸ List.suffix_rfl
  exact ⟨c, e, past, a, hc, hs, ha, (approval_sent_waiting hc hs).2 a ha⟩

/-! ## What happens otherwise -/

/-- The task is cancelled (thread 6) before someone approves its command (thread 7). -/
def lateRun : List Lbl :=
  registering ++ commanding ++ storing ++ [.request 0 (.cancelTask 1 "ann" 9)] ++ commits 6 3 ++
  approving 7

/-- The approval goes out although the task was returned as cancelled. -/
theorem approval_sent_after_cancel : ∃ c e past a x, Reachable sample c ∧ c.trace = e :: past ∧
    SendsApproval a e past ∧ x ∈ past ∧ ReturnsCancelled a.taskID x := by
  have hrun : (((machine sample).run anything start lateRun).any (sendsApproval fun a past =>
      past.any fun x => returnsCancelled x = some a.taskID)) = true := by
    decide +kernel
  obtain ⟨c, hc, hsends⟩ := reachable_of_run hrun
  obtain ⟨e, past, a, htr, ha, hany⟩ := sendsApproval_spec hsends
  obtain ⟨x, hx, hx'⟩ := List.any_eq_true.mp hany
  exact ⟨c, e, past, a, x, hc, htr, ha, hx, returnsCancelled_spec (of_decide_eq_true hx')⟩

end Jarvis.Orchestrator
