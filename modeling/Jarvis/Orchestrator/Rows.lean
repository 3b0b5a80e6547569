import Jarvis.Orchestrator.Store

/-!
# What a statement does to a row

For each table invariants speak of, one relation that lists everything a statement can do to a row
of it, guards included, and one theorem that it is complete. Invariants go through these and never
look into `Query.exec`.
-/

namespace Jarvis.Orchestrator

open Table

variable {locked : List ℕ} {now : Time} {db : DB} {q : Query}

/-! ## Tasks -/

/-- What a statement can do to the row of a task. -/
inductive TaskStep (now : Time) (r : TaskRow) : Query → TaskRow → Prop
  | same {q : Query} : TaskStep now r q r
  | lease (h : DB.runnable now r = true) :
      TaskStep now r (.leaseTask owner duration) (DB.lease owner duration now r)
  | renew (h : DB.held r.id owner r = true) :
      TaskStep now r (.renewLease r.id owner duration)
        { r with leaseUntil := some (now + duration) }
  | save {t : Task} {owner : Owner} (h : DB.held t.id owner r = true) :
      TaskStep now r (.saveProgress t owner) (DB.saved t now r)
  | setState {t : Task} {owner : Owner} {state : TaskState} {result : String}
      (h : DB.held t.id owner r = true) :
      TaskStep now r (.setTaskState t owner state result) (DB.released t state result now r)
  | resume {update : Resume} {t : Task} (h : DB.waiting r = true)
      (ht : update.apply r.toTask = some t) :
      TaskStep now r (.resumeTask r.id update) (DB.resumed t now r)
  | cancel (h : DB.cancellable tenant user r.id r = true) :
      TaskStep now r (.cancelTask tenant user r.id) (DB.cancelRow now r)

/-- The row a new task gets. -/
def newTask (now : Time) (t : Task) : TaskRow :=
  { t with steps := 0, createdAt := now, updatedAt := now }

variable {r : TaskRow} {id : UUID} {c : Confirmation} {a : DeviceApproval}

/-- A task that has ended stays as it is. -/
theorem TaskStep.ended (h : TaskStep now r q r') (ht : r.state.terminal = true) : r' = r := by
  have running : ∀ {id owner}, DB.held id owner r = true → r.state = .running := by
    intro id owner hh
    simp only [DB.held, decide_eq_true_eq] at hh
    exact hh.2.2
  cases h with
  | same => rfl
  | lease hr =>
    simp only [DB.runnable, Bool.or_eq_true, Bool.and_eq_true, decide_eq_true_eq] at hr
    rcases hr with hr | ⟨hr, -⟩ <;> simp [hr, TaskState.terminal] at ht
  | renew hh | save hh | setState hh => simp [running hh, TaskState.terminal] at ht
  | resume hw _ =>
    simp only [DB.waiting, Bool.or_eq_true, decide_eq_true_eq] at hw
    rcases hw with hw | hw <;> simp [hw, TaskState.terminal] at ht
  | cancel hc => simp [DB.cancellable, ht] at hc

theorem DB.taskRow_id (h : db.taskRow id = some r) : r.id = id :=
  by simpa using List.find?_some h

/-- A statement changes tasks only as `TaskStep` says, and adds one only by `CreateTask`. -/
theorem Query.exec_tasks (q : Query) (locked : List ℕ) (now : Time) (db : DB) :
    Change (fun r : TaskRow => r.id) (fun r r' => Keyed (fun r : TaskRow => r.id) db.tasks →
      TaskStep now r q r')
      (fun r => ∃ t, q = .createTask t ∧ r = newTask now t ∧ db.taskRow t.id = none)
      db.tasks (q.exec locked now db).2.tasks := by
  by_cases hw : Tab.tasks ∈ q.writes
  · cases q <;> simp only [writes, List.mem_cons, List.not_mem_nil, reduceCtorEq, or_false] at hw
    case createTask t =>
      simp only [exec, DB.createTask]
      split_ifs with hc
      · exact .same
      · simp only [Bool.or_eq_true, not_or, Bool.not_eq_true, Option.isSome_eq_false_iff,
          Option.isNone_iff_eq_none] at hc
        exact .insert ⟨t, rfl, rfl, hc.1⟩
    case leaseTask owner duration =>
      simp only [exec, DB.leaseTask]
      split
      · exact .same
      · rename_i r' hr'
        have hmem := List.mem_of_mem_head? hr'
        simp only [mem_orderBy, List.mem_filter, Bool.and_eq_true] at hmem
        refine .set (fun _ => rfl) fun r hr hp hk => ?_
        rw [hk.eq hmem.1 hr (of_decide_eq_true hp).symm] at hmem
        exact .lease hmem.2.1
    case renewLease id owner duration =>
      refine .set (fun _ => rfl) fun r _ hp _ => ?_
      obtain rfl : r.id = id := (of_decide_eq_true hp).1
      exact .renew hp
    case saveProgress => exact .set (fun _ => rfl) fun _ _ hp _ => .save hp
    case setTaskState => exact .set (fun _ => rfl) fun _ _ hp _ => .setState hp
    case resumeTask id update =>
      simp only [exec, DB.resumeTask]
      split
      · exact .same
      · rename_i r₀ hr₀
        split_ifs with hwait
        · split
          · exact .same
          · rename_i t ht
            refine .set (fun _ => rfl) fun r hr hp hk => ?_
            obtain rfl : r.id = id := of_decide_eq_true hp
            obtain rfl := hk.eq hr (row_mem hr₀) (DB.taskRow_id hr₀).symm
            exact .resume hwait ht
        · exact .same
    case cancelTask tenant user id =>
      simp only [exec, DB.cancelTask]
      split
      · exact .same
      · refine .set (fun _ => rfl) fun r _ hp _ => ?_
        obtain rfl : r.id = id := (of_decide_eq_true hp).1
        exact .cancel hp
  · rw [show _ = _ from exec_same .tasks hw]
    exact .same

/-- A statement changes the row of a task only as `TaskStep` says. -/
theorem Query.exec_task (q : Query) (locked : List ℕ) (now : Time)
    (hk : Keyed (fun r : TaskRow => r.id) db.tasks) (h : db.taskRow id = some r) :
    ∃ r', (q.exec locked now db).2.taskRow id = some r' ∧ TaskStep now r q r' := by
  obtain ⟨r', hr', hstep⟩ := (q.exec_tasks locked now db).row_some (fun _ _ => .same) h
  exact ⟨r', hr', hstep hk⟩

/-- A task gets a row only by `CreateTask`. -/
theorem Query.exec_no_task (q : Query) (locked : List ℕ) (now : Time) (h : db.taskRow id = none) :
    (q.exec locked now db).2.taskRow id = none ∨ ∃ t, q = .createTask t ∧ t.id = id ∧
      (q.exec locked now db).2.taskRow id = some (newTask now t) := by
  rcases (q.exec_tasks locked now db).row_none h with h | ⟨r, ⟨t, hq, rfl, -⟩, hid, hr⟩
  · exact .inl h
  · exact .inr ⟨t, hq, hid, hr⟩

/-! ## Confirmations -/

/-- What a statement can do to the row of a confirmation. -/
inductive ConfirmationStep (now : Time) (db : DB) (c : Confirmation) : Query → Confirmation → Prop
  | same {q : Query} : ConfirmationStep now db c q c
  | settle (h : DB.settleable k c.id turn confirm now c = true) :
      ConfirmationStep now db c (.settle k c.id turn confirm)
        { c with state := DB.settledState confirm }
  | markAsked : ConfirmationStep now db c (.markAsked c.id turn) (DB.asked turn c)
  | markCallAsked (h : DB.askedBy k callID c = true) :
      ConfirmationStep now db c (.markCallAsked k callID turn) (DB.asked turn c)
  | expire (h : DB.overdue now c = true) :
      ConfirmationStep now db c .expireConfirmations { c with state := .expired }
  | reroute (hs : c.state = .pending) (ht : (db.eventTarget k now).1 ≠ k) :
      ConfirmationStep now db c (.addEvent k payload (some c.id))
        (DB.moved (db.eventTarget k now).1 c)
  | carry {e : EventRow} (he : e ∈ db.events) (hu : db.unheard k tenant user window now e = true)
      (hc : e.confirmationID = some c.id) (hs : c.state = .pending) :
      ConfirmationStep now db c (.carryOverEvents k tenant user window) (DB.moved k c)
  | cancel {r : TaskRow} (hr : r ∈ db.tasks) (hc : DB.cancellable tenant user T r = true)
      (ht : c.taskID = some T) (hs : c.state = .pending) :
      ConfirmationStep now db c (.cancelTask tenant user T) { c with state := .cancelled }

theorem DB.confirmationRow_id (h : db.confirmationRow id = some c) :
    c.id = id := row_key h

/-- A statement changes confirmations only as `ConfirmationStep` says, and adds one only by
`CreateConfirmation`. -/
theorem Query.exec_confirmations (q : Query) (locked : List ℕ) (now : Time) (db : DB) :
    Change Confirmation.id (fun c c' => ConfirmationStep now db c q c')
      (fun c' => ∃ c, q = .createConfirmation c ∧ c' = { c with state := .pending } ∧
        c.action.isSome ∧ db.confirmationRow c.id = none)
      db.confirmations (q.exec locked now db).2.confirmations := by
  by_cases hw : Tab.confirmations ∈ q.writes
  · cases q <;> simp only [writes, List.mem_cons, List.not_mem_nil, reduceCtorEq, or_false,
      false_or] at hw
    case cancelTask tenant user T =>
      simp only [exec, DB.cancelTask]
      split
      · exact .same
      · rename_i r hr
        refine .set (fun _ => rfl) fun c _ hp => ?_
        have hp := of_decide_eq_true hp
        exact .cancel (List.mem_of_find?_eq_some hr) (List.find?_some hr) hp.1 hp.2
    case createConfirmation c =>
      simp only [exec, DB.createConfirmation]
      split_ifs with hc
      · exact .same
      · simp only [Bool.or_eq_true, not_or, Bool.not_eq_true, Option.isSome_eq_false_iff,
          Option.isNone_iff_eq_none] at hc
        exact .insert ⟨c, rfl, rfl, Option.isSome_iff_ne_none.mpr hc.2, hc.1.1.1⟩
    case settle k id turn confirm =>
      simp only [exec, DB.settle]
      split
      · exact .same
      · refine .set (fun _ => rfl) fun c _ hp => ?_
        obtain rfl : c.id = id := (of_decide_eq_true hp).1
        exact .settle hp
    case markAsked id turn =>
      refine .set (fun _ => rfl) fun c _ hp => ?_
      obtain rfl : c.id = id := of_decide_eq_true hp
      exact .markAsked
    case markCallAsked => exact .set (fun _ => rfl) fun _ _ hp => .markCallAsked hp
    case expireConfirmations => exact .set (fun _ => rfl) fun _ _ hp => .expire hp
    case addEvent k payload conf =>
      simp only [exec, DB.addEvent]
      split
      · exact .same
      · dsimp only
        split_ifs with ht
        · exact .same
        · refine .set (fun _ => rfl) fun c _ hp => ?_
          obtain ⟨rfl, hs⟩ := of_decide_eq_true hp
          exact .reroute hs ht
    case carryOverEvents k tenant user window =>
      simp only [exec, DB.carryOverEvents]
      split
      · exact .same
      · refine .set (fun _ => rfl) fun c _ hp => ?_
        obtain ⟨hm, hs⟩ := of_decide_eq_true hp
        obtain ⟨e, he, hc⟩ := List.mem_map.mp hm
        obtain ⟨he, hu⟩ := List.mem_filter.mp he
        exact .carry he hu hc hs
  · rw [show _ = _ from exec_same .confirmations hw]
    exact .same

/-- A statement changes the row of a confirmation only as `ConfirmationStep` says. -/
theorem Query.exec_confirmation (q : Query) (locked : List ℕ) (now : Time)
    (h : db.confirmationRow id = some c) :
    ∃ c', (q.exec locked now db).2.confirmationRow id = some c' ∧
      ConfirmationStep now db c q c' :=
  (q.exec_confirmations locked now db).row_some (fun _ => .same) h

/-- A confirmation gets a row only by `CreateConfirmation`. -/
theorem Query.exec_no_confirmation (q : Query) (locked : List ℕ) (now : Time)
    (h : db.confirmationRow id = none) :
    (q.exec locked now db).2.confirmationRow id = none ∨
      ∃ c, q = .createConfirmation c ∧ c.id = id ∧ c.action.isSome ∧
      (q.exec locked now db).2.confirmationRow id = some { c with state := .pending } := by
  rcases (q.exec_confirmations locked now db).row_none h with h | ⟨c', ⟨c, hq, rfl, ha, -⟩, hid, hr⟩
  · exact .inl h
  · exact .inr ⟨c, hq, hid, ha, hr⟩

/-! ## Events -/

/-- What a statement can do to an event. -/
inductive EventStep (now : Time) (db : DB) (e : EventRow) : Query → EventRow → Prop
  | same {q : Query} : EventStep now db e q e
  | carry (h : db.unheard k tenant user window now e = true) :
      EventStep now db e (.carryOverEvents k tenant user window) { e with conversationID := k }
  | ack (h : DB.acks k e.id e = true) :
      EventStep now db e (.ackEvent k e.id turn)
        { e with ackedTurn := some (e.ackedTurn.getD turn) }

/-- The event `AddEvent` adds. -/
def newEvent (now : Time) (db : DB) (k : UUID) (payload : Payload) (conf : Option UUID) :
    EventRow :=
  ⟨db.nextEvent, (db.eventTarget k now).1, payload, conf, none, now⟩

/-- A statement changes events only as `EventStep` says, and adds one only by `AddEvent`. -/
theorem Query.exec_events (q : Query) (locked : List ℕ) (now : Time) (db : DB) :
    Change EventRow.id (fun e e' => EventStep now db e q e')
      (fun e => ∃ k payload conf, q = .addEvent k payload conf ∧ e = newEvent now db k payload conf)
      db.events (q.exec locked now db).2.events := by
  by_cases hw : Tab.events ∈ q.writes
  · cases q <;> simp only [writes, List.mem_cons, List.not_mem_nil, reduceCtorEq, or_false] at hw
    case addEvent k payload conf =>
      simp only [exec, DB.addEvent]
      split
      · exact .same
      · exact .insert ⟨k, payload, conf, rfl, rfl⟩
    case carryOverEvents k tenant user window =>
      simp only [exec, DB.carryOverEvents]
      split
      · exact .same
      · exact .set (fun _ => rfl) fun _ _ hp => .carry hp
    case ackEvent k id turn =>
      refine .set (fun _ => rfl) fun e _ hp => ?_
      obtain rfl : e.id = id := (of_decide_eq_true hp).1
      exact .ack hp
  · rw [(exec_same .events hw).1]
    exact .same

/-- Where an event comes from. -/
theorem Query.exec_event (h : e' ∈ (q.exec locked now db).2.events) :
    (∃ e ∈ db.events, EventStep now db e q e') ∨
      ∃ k payload conf, q = .addEvent k payload conf ∧ e' = newEvent now db k payload conf :=
  (q.exec_events locked now db).of_mem (fun _ => .same) h

/-- Events stay. -/
theorem Query.exec_event_stays (q : Query) (locked : List ℕ) (now : Time) (h : e ∈ db.events) :
    ∃ e' ∈ (q.exec locked now db).2.events, EventStep now db e q e' :=
  (q.exec_events locked now db).stays (fun _ => .same) h

/-! ## Approvals -/

/-- An approval is stored only by `SaveApproval`, under a new id, for a device there is. -/
theorem Query.exec_approval (h : a ∈ (q.exec locked now db).2.approvals) :
    a ∈ db.approvals ∨ (q = .saveApproval a ∧ db.approvalRow a.approvalID = none) := by
  by_cases hw : Tab.approvals ∈ q.writes
  · cases q <;> simp only [writes, List.mem_cons, List.not_mem_nil, reduceCtorEq, or_false,
      false_or] at hw
    case deleteDevice tenant user id =>
      simp only [exec, DB.deleteDevice] at h
      split at h
      · exact .inl (mem_delete.mp h).1
      · exact .inl h
    case saveApproval a' =>
      simp only [exec, DB.saveApproval] at h
      split_ifs at h with hc
      · exact .inl h
      · rcases mem_insert.mp h with h | rfl
        · exact .inl h
        · simp only [Bool.or_eq_true, not_or, Bool.not_eq_true, Option.isSome_eq_false_iff,
            Option.isNone_iff_eq_none] at hc
          exact .inr ⟨rfl, hc.1.1⟩
    case expireApprovals => exact .inl (mem_delete.mp h).1
    case deleteApproval => exact .inl (mem_delete.mp h).1
  · rw [show _ = _ from exec_same .approvals hw] at h
    exact .inl h

/-- An approval goes only with its device, when it expires, or when it is deleted. -/
theorem Query.exec_approval_stays (q : Query) (locked : List ℕ) (now : Time)
    (h : a ∈ db.approvals) :
    a ∈ (q.exec locked now db).2.approvals ∨ q = .deleteApproval a.approvalID ∨
      (q = .expireApprovals ∧ a.expiresAt < now) ∨
      ∃ tenant user, q = .deleteDevice tenant user a.deviceID := by
  by_cases hw : Tab.approvals ∈ q.writes
  · cases q <;> simp only [writes, List.mem_cons, List.not_mem_nil, reduceCtorEq, or_false,
      false_or] at hw
    case deleteDevice tenant user id =>
      simp only [exec, DB.deleteDevice]
      split
      · by_cases hd : a.deviceID = id
        · exact .inr (.inr (.inr ⟨tenant, user, by rw [hd]⟩))
        · exact .inl (mem_delete.mpr ⟨h, by simpa using hd⟩)
      · exact .inl h
    case saveApproval a' =>
      simp only [exec, DB.saveApproval]
      split
      · exact .inl h
      · exact .inl (mem_insert.mpr (.inl h))
    case expireApprovals =>
      by_cases he : a.expiresAt < now
      · exact .inr (.inr (.inl ⟨rfl, he⟩))
      · exact .inl (mem_delete.mpr ⟨h, by simpa using he⟩)
    case deleteApproval x =>
      by_cases hx : a.approvalID = x
      · exact .inr (.inl (by rw [hx]))
      · exact .inl (mem_delete.mpr ⟨h, by simpa using hx⟩)
  · exact .inl (by rw [show _ = _ from exec_same .approvals hw]; exact h)

/-! ## Keys -/

/-- Ids are primary keys. -/
structure DB.Keys (db : DB) : Prop where
  tasks : Keyed (fun r : TaskRow => r.id) db.tasks
  confirmations : Keyed Confirmation.id db.confirmations
  events : Keyed EventRow.id db.events
  events_lt : ∀ e ∈ db.events, e.id < db.nextEvent
  approvals : Keyed DeviceApproval.approvalID db.approvals

theorem Query.exec_events_lt (h : ∀ e ∈ db.events, e.id < db.nextEvent) :
    ∀ e ∈ (q.exec locked now db).2.events, e.id < (q.exec locked now db).2.nextEvent := by
  have hset : ∀ (p : EventRow → Bool) f, (∀ x : EventRow, (f x).id = x.id) →
      ∀ e ∈ Table.set p f db.events, e.id < db.nextEvent := by
    intro p f hf e he
    obtain ⟨x, hx, rfl⟩ := mem_set.mp he
    split_ifs
    · rw [hf]
      exact h x hx
    · exact h x hx
  by_cases hw : Tab.events ∈ q.writes
  · cases q <;> simp only [writes, List.mem_cons, List.not_mem_nil, reduceCtorEq, or_false] at hw
    case addEvent =>
      simp only [exec, DB.addEvent]
      split
      · exact h
      · intro e he
        rcases mem_insert.mp he with he | rfl
        · exact (h e he).trans (Nat.lt_succ_self _)
        · exact Nat.lt_succ_self _
    case carryOverEvents =>
      simp only [exec, DB.carryOverEvents]
      split
      · exact h
      · exact hset _ _ fun _ => rfl
    case ackEvent => exact hset _ _ fun _ => rfl
  · rw [(exec_same .events hw).1, (exec_same .events hw).2]
    exact h

theorem Query.exec_keyed_approvals (h : Keyed DeviceApproval.approvalID db.approvals) :
    Keyed DeviceApproval.approvalID (q.exec locked now db).2.approvals := by
  by_cases hw : Tab.approvals ∈ q.writes
  · cases q <;> simp only [writes, List.mem_cons, List.not_mem_nil, reduceCtorEq, or_false,
      false_or] at hw
    case deleteDevice =>
      simp only [exec, DB.deleteDevice]
      split
      · exact h.delete
      · exact h
    case saveApproval =>
      simp only [exec, DB.saveApproval]
      split_ifs with hc
      · exact h
      · simp only [Bool.or_eq_true, not_or, Bool.not_eq_true, Option.isSome_eq_false_iff,
          Option.isNone_iff_eq_none] at hc
        exact h.insert hc.1.1
    case expireApprovals => exact h.delete
    case deleteApproval => exact h.delete
  · rw [show _ = _ from exec_same .approvals hw]
    exact h

/-- Every statement keeps ids primary keys. -/
theorem Query.exec_keys (h : db.Keys) : (q.exec locked now db).2.Keys where
  tasks := by
    refine (q.exec_tasks locked now db).keyed ?_ h.tasks
    rintro r ⟨t, -, rfl, hfree⟩
    exact hfree
  confirmations := by
    refine (q.exec_confirmations locked now db).keyed ?_ h.confirmations
    rintro r ⟨c, -, rfl, -, hfree⟩
    exact hfree
  events := by
    refine (q.exec_events locked now db).keyed ?_ h.events
    rintro r ⟨k, payload, conf, -, rfl⟩
    exact row_eq_none.mpr fun e he => (h.events_lt e he).ne
  events_lt := exec_events_lt h.events_lt
  approvals := exec_keyed_approvals h.approvals

end Jarvis.Orchestrator
