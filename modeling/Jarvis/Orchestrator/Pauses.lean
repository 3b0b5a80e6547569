import Jarvis.Orchestrator.Cancellation

/-!
# Tasks that wait for a confirmation

A worker puts a task to `awaiting_confirmation` and then stores the confirmation; a conversation
settles a confirmation, and `maintenance` expires one, and then resumes the task. Between the two
statements nothing but the running thread knows that the task waits (`Owes`); the thread is bound to
make the second request, but that may fail, and the process may stop before it.
-/

namespace Jarvis.Orchestrator

open Interleave Engine Table

variable {P : Params} {tr : List Ev} {e : Ev} {T : UUID} {callID : String}

/-! ## What a waiting task waits for -/

/-- The task waits for the user to confirm a call. -/
def DB.waitsFor (db : DB) (T : UUID) (callID : String) : Bool :=
  (db.taskRow T).any fun r => r.state = .awaitingConfirmation && headCall r.toTask = some callID

/-- A pending confirmation for a call of a task. -/
def asksFor (T : UUID) (callID : String) (c : Confirmation) : Bool :=
  c.taskID = some T && c.callID = callID && c.state = .pending

/-- The task waits for a confirmation, and there is none the user could give. -/
def DB.unasked (db : DB) (T : UUID) (callID : String) : Bool :=
  db.waitsFor T callID && !db.confirmations.any (asksFor T callID)

theorem DB.waitsFor_iff {db : DB} : db.waitsFor T callID = true ↔ ∃ r, db.taskRow T = some r ∧
    r.state = .awaitingConfirmation ∧ headCall r.toTask = some callID := by
  simp [DB.waitsFor, Option.any_eq_true]

theorem asksFor_iff : asksFor T callID c = true ↔
    c.taskID = some T ∧ c.callID = callID ∧ c.state = .pending := by
  simp [asksFor, and_assoc]

variable {j : Job} {ks past : Log} {r : TaskRow} {c : Cfg}
  {ok : Cfg → Lbl → Prop} {id : UUID} {x : Exchange}

/-- A worker that puts a task to wait for the user has done nothing before, and the task waits for
its first pending call. -/
theorem Does.pause_inv (h : Does P j ks (.db (.setTaskState t owner state result)))
    (hs : state = .awaitingConfirmation ∨ state = .awaitingApproval) :
    ks = [] ∧ ∃ callID, headCall t = some callID := by
  rcases h.setTaskState_inv with ⟨_, _, _, _, rfl, _⟩ | ⟨_, _, _, _, _,
    ⟨rfl, _⟩ | ⟨_, _, _, _, _, rfl, _⟩ | ⟨call, rest, rfl, hks, _, _, rfl⟩⟩
  · simp at hs
  · simp at hs
  · simp at hs
  · exact ⟨hks, _, headCall_withState⟩

theorem DB.waiting_iff : DB.waiting r = true ↔
    r.state = .awaitingConfirmation ∨ r.state = .awaitingApproval := by
  simp [DB.waiting]

/-- How a task comes to wait for the user: it did, with the same row, or its worker has just put it
there, or it is a command that has just been created. -/
theorem Fired.waits (h : Fired P c past e) (hr' : e.after.db.taskRow T = some r')
    (hs : DB.waiting r' = true) :
    e.before.db.taskRow T = some r' ∨
    (∃ t owner result r, t.id = T ∧ e.act.1 = .db (.setTaskState t owner r'.state result) ∧
      e.before.db.taskRow T = some r ∧ DB.held t.id owner r = true ∧ r'.kind = r.kind ∧
      headCall r'.toTask = headCall t) ∨
    ∃ t, t.id = T ∧ e.act.1 = .db (.createTask t) ∧ r' = newTask e.before.now t ∧
      t.kind = .command ∧ t.state = .awaitingApproval := by
  cases hr : e.before.db.taskRow T with
  | none =>
    rcases h.answered.no_task hr with hn | ⟨t, hq, hid, ht⟩
    · rw [hn] at hr'
      cases hr'
    · rw [ht] at hr'
      cases hr'
      have hd := h.does
      rw [hq] at hd
      rcases hd.createTask_inv with ⟨-, hst, -⟩ | ⟨hk, hst, -⟩
      · simp [DB.waiting, newTask, hst] at hs
      · exact .inr (.inr ⟨t, hid, hq, rfl, hk, hst⟩)
  | some r =>
    obtain ⟨r₁, hr₁, hstep⟩ := h.answered.task h.keys hr
    obtain rfl : r₁ = r' := Option.some.inj (hr₁.symm.trans hr')
    have running : ∀ {id owner}, DB.held id owner r = true → DB.waiting r = true → False := by
      intro id owner hh hw
      simp [DB.waiting, (DB.held_iff.mp hh).2.2] at hw
    rcases hstep with rfl | ⟨q, hq, hstep⟩
    · exact .inl rfl
    · cases hstep with
      | same => exact .inl rfl
      | lease hh => simp [DB.waiting, DB.lease] at hs
      | renew hh | save hh => exact (running hh hs).elim
      | @setState t owner state result hh =>
        have hid : t.id = T := (DB.held_iff.mp hh).1.symm.trans (DB.taskRow_id hr)
        exact .inr (.inl ⟨t, owner, result, r, hid, hq, rfl, hh, rfl, rfl⟩)
      | resume hw ht =>
        rcases Resume.apply_state ht with hst | hst | hst <;>
          simp [DB.waiting, DB.resumed, hst] at hs
      | cancel hc => simp [DB.waiting, DB.cancelRow] at hs

section

variable (h : Reaches P ok c) (hr : c.shared.db.taskRow T = some r)
include h hr

/-- An agent's task that waits for the user waits for its first pending call. -/
theorem Reaches.waits (hs : DB.waiting r = true) (hk : r.kind = .agent) :
    ∃ callID, headCall r.toTask = some callID := by
  revert T r
  refine Reach.inv (P := fun s _ => ∀ {T : UUID} {r : TaskRow}, s.db.taskRow T = some r →
    DB.waiting r = true → r.kind = .agent → ∃ callID, headCall r.toTask = some callID) h ?_ ?_ ?_
  · exact fun hr => by cases hr
  · intro c tid o th i k a s hr hP _ hf T r' hr' hs hk
    have hfire := Reaches.fired hr hf
    rcases hfire.waits hr' hs with hrow | ⟨t, owner, result, r, -, hq, -, -, -, hhead⟩ |
      ⟨t, -, -, rfl, hk', -⟩
    · exact hP hrow hs hk
    · have hd := hfire.does
      rw [hq] at hd
      rw [hhead]
      exact (hd.pause_inv (DB.waiting_iff.mp hs)).2
    · exact absurd (hk.symm.trans hk') (by simp)
  · intro c v s _ hP _ hv T r hr hs
    rw [World.step_db hv] at hr
    exact hP hr hs

/-- A task that waits for a confirmation is an agent's. -/
theorem Reaches.agent (hs : r.state = .awaitingConfirmation) : r.kind = .agent := by
  cases hk : r.kind with
  | agent => rfl
  | command => exact absurd hs ((h.progress.1.1 T r hr).command hk).2.2.2

/-- An agent's task takes the result of the call it waits for. -/
theorem Reaches.completes (hk : r.kind = .agent) (hhead : headCall r.toTask = some callID)
    (out : String) : ∃ t, completePending r.toTask callID out = some t := by
  obtain ⟨items, calls, hstores, -⟩ := (h.progress.1.1 T r hr).agent hk
  cases calls with
  | nil => simp [headCall, hstores.2] at hhead
  | cons call rest =>
    obtain rfl : call.callID = callID := by simpa [headCall, hstores.2] using hhead
    exact ⟨_, completePending_head hstores out⟩

end

/-- Stored actions are readable. -/
theorem Lawful.readable (h : Lawful P tr) {c : Confirmation}
    (hc : (dbOf tr).confirmationRow id = some c) : (decodeAction P c.action).isSome = true := by
  induction h generalizing c with
  | nil => cases hc
  | @cons x tr tail does answered db job ih =>
    cases hrow : (dbOf tr).confirmationRow id with
    | none =>
      rcases answered.no_confirmation (db ▸ hrow) with hn | ⟨c₀, hq, -, ha, hc₀⟩
      · rw [dbOf, hn] at hc
        cases hc
      · rw [dbOf, hc₀] at hc
        cases hc
        rw [hq] at does
        obtain ⟨a, hact⟩ := does.createConfirmation_inv.2
        obtain ⟨j, hj⟩ := Option.isSome_iff_exists.mp ha
        obtain ⟨b, hb, -⟩ := decodeAction_encodeAction (hact.symm.trans hj)
        simp [hj, hb]
    | some c₀ =>
      obtain ⟨c', hc', hs⟩ := answered.confirmation (db ▸ hrow)
      obtain rfl : c' = c := Option.some.inj (hc'.symm.trans hc)
      rcases hs with rfl | ⟨q, -, hs⟩
      · exact ih hrow
      · rw [hs.action_eq]
        exact ih hrow

/-- How a confirmation of a task stops being pending: it is settled, it expires, or its task is
cancelled. -/
theorem Fired.settles (h : Fired P c past e) (hc : e.before.db.confirmationRow id = some conf)
    (hc' : e.after.db.confirmationRow id = some conf') (hp : conf.state = .pending)
    (hn : conf'.state ≠ .pending) (ht : conf.taskID = some T) :
    (∃ k turn confirm, e.act.1 = .db (.settle k id turn confirm) ∧
      DB.settleable k id turn confirm e.before.now conf = true) ∨
    (e.act.1 = .db .expireConfirmations ∧ DB.overdue e.before.now conf = true) ∨
    ∃ r, e.after.db.taskRow T = some r ∧ r.state = .cancelled := by
  obtain ⟨conf₁, hconf₁, hstep⟩ := h.answered.confirmation hc
  obtain rfl : conf₁ = conf' := Option.some.inj (hconf₁.symm.trans hc')
  have hid := DB.confirmationRow_id hc
  rcases hstep with rfl | ⟨q, hq, hstep⟩
  · exact absurd hp hn
  · cases hstep with
    | same => exact absurd hp hn
    | settle hset => exact .inl ⟨_, _, _, hid ▸ hq, hid ▸ hset⟩
    | markAsked | markCallAsked => exact absurd hp hn
    | expire hb => exact .inr (.inl ⟨hq, hb⟩)
    | reroute | carry => exact absurd hp hn
    | @cancel tenant user T' r hr hcan htask hs =>
      obtain rfl : T' = T := Option.some.inj (htask.symm.trans ht)
      rcases h.answered.effect with heq | ⟨q', locked, hq', heq⟩
      · rw [heq, hc] at hc'
        exact absurd (hp.symm.trans (congrArg (·.state) (Option.some.inj hc'))) (by simp)
      · obtain rfl : q' = .cancelTask tenant user T' := Instr.db.inj (hq'.symm.trans hq)
        rw [heq]
        exact .inr (.inr (cancelTask_cancels h.keys (List.any_eq_true.mpr ⟨r, hr, hcan⟩)))

variable {conf : Confirmation}

section Rows

variable {locked : List ℕ} {now : Time} {db : DB}

/-- A confirmation that may be settled is. -/
theorem settle_runs {id : UUID} (hk : db.Keys) (hc : db.confirmationRow id = some conf)
    (hs : DB.settleable k id turn confirm now conf = true) :
    ((Query.settle k id turn confirm).exec locked now db).1 =
      .ok { conf with state := DB.settledState confirm } := by
  dsimp only [Query.exec]
  unfold DB.settle
  split
  · rename_i hnone
    exact absurd hs (List.find?_eq_none.mp hnone conf (row_mem hc))
  · rename_i c hfind
    have hset := List.find?_some hfind
    have hid : c.id = id := (of_decide_eq_true hset).1
    have hrow : db.confirmationRow id = some c :=
      hid ▸ hk.confirmations.row_eq (List.mem_of_find?_eq_some hfind)
    rw [Option.some.inj (hrow.symm.trans hc)]

/-- The database takes the confirmation: its id is new, its conversation and task exist, and its
action is JSON. -/
def DB.admits (db : DB) (conf : Confirmation) : Bool :=
  (db.confirmationRow conf.id).isNone && (db.conversation conf.conversationID).isSome &&
    conf.taskID.all (fun t => (db.taskRow t).isSome) && conf.action.isSome

theorem createConfirmation_admits (locked : List ℕ) (now : Time) (h : db.admits conf = true) :
    ((Query.createConfirmation conf).exec locked now db).1 = .ok () := by
  simp only [DB.admits, Bool.and_eq_true, Option.isNone_iff_eq_none] at h
  obtain ⟨⟨⟨hid, hk⟩, ht⟩, ha⟩ := h
  have htask : conf.taskID.any (fun t => (db.taskRow t).isNone) = false := by
    cases hT : conf.taskID with
    | none => rfl
    | some t =>
      rw [hT] at ht
      simpa using ht
  dsimp only [Query.exec]
  simp [DB.createConfirmation, hid, htask, Option.isSome_iff_ne_none.mp hk,
    Option.isSome_iff_ne_none.mp ha]

/-- A worker that holds a task and puts it to a state is told so. -/
theorem setTaskState_told (hk : db.Keys) (hr : db.taskRow T = some r)
    (hh : DB.held t.id owner r = true) :
    ((Query.setTaskState t owner state result).exec locked now db).1 = .ok true := by
  have hle : db.tasks.countP (DB.held t.id owner) ≤ 1 :=
    hk.tasks.countP_le_one (k := t.id) fun x _ hx => (DB.held_iff.mp hx).1
  have hpos : 0 < db.tasks.countP (DB.held t.id owner) :=
    List.countP_pos_iff.mpr ⟨r, row_mem hr, hh⟩
  dsimp only [Query.exec]
  simp only [DB.setTaskState, Except.ok.injEq, decide_eq_true_eq]
  omega

end Rows

/-! ## Pairs of statements -/

/-- No statement that makes a task wait for a thread is lost, and none that ends such a wait
fails. -/
def pausesSafely (c : Cfg) (i : Instr) (o : Oracle) : Bool :=
  match i with
  | .db (.setTaskState t owner .awaitingConfirmation _) =>
    !o.isLost || !c.shared.db.tasks.any (DB.held t.id owner)
  | .db (.settle k id turn confirm) =>
    !o.isLost || !c.shared.db.confirmations.any fun conf =>
      DB.settleable k id turn confirm c.shared.now conf && conf.taskID.isSome
  | .db .expireConfirmations =>
    !o.isLost || !c.shared.db.confirmations.any fun conf =>
      DB.overdue c.shared.now conf && conf.taskID.isSome
  | .db (.createConfirmation conf) =>
    conf.taskID.all fun T => !c.shared.db.unasked T conf.callID ||
      (!o.fails && c.shared.db.admits conf)
  | .db (.resumeTask T (.complete callID _)) => !o.fails || !c.shared.db.unasked T callID
  | _ => true

/-- The runs in which pairs of statements are not torn apart: not by a failure, and not by a process
that stops. -/
abbrev Careful (P : Params) : Cfg → Lbl → Prop :=
  guarded pausesSafely fun c p => ∀ tid th, c.threads tid = some th → th.proc = p →
    ∀ T callID, c.shared.db.unasked T callID = true → ¬ Owes P T callID (keys th.past)

theorem Owes.of_opens (hk : x.1.key = true) (ho : opens P T callID x) (hx : ¬ closes T callID x.1)
    (hc : ∀ y ∈ keys past, ¬ closes T callID y.1) :
    Owes P T callID (keys (x :: past)) := by
  rw [keys_cons_key hk]
  refine ⟨⟨x, List.mem_cons_self .., ho⟩, fun y hy => ?_⟩
  rcases List.mem_cons.mp hy with rfl | hy
  · exact hx
  · exact hc y hy

theorem Owes.cons (h : Owes P T callID (keys past)) (hx : ¬ closes T callID x.1) :
    Owes P T callID (keys (x :: past)) := by
  obtain ⟨⟨y, hy, ho⟩, hc⟩ := h
  refine ⟨⟨y, keys_subset_cons hy, ho⟩, fun z hz => ?_⟩
  rcases mem_keys_cons hz with rfl | hz
  · exact hx
  · exact hc z hz

theorem Does.settle_inv (h : Does P j ks (.db (.settle k id turn confirm))) : ks = [] := by
  cases h with
  | free h => cases h
  | settle => rfl

theorem Does.expireConfirmations_inv (h : Does P j ks (.db .expireConfirmations)) :
    ∀ x ∈ ks, ∀ T callID, ¬ closes T callID x.1 := by
  cases h with
  | free h => cases h
  | expireConfirmations h => exact h

section Fire

variable {tid : ℕ} {o : Oracle} {th : Thread Instr Answer Job} {s : Shared}

/-- A worker that puts a task to `awaiting_confirmation` owes the question. -/
theorem Careful.pause {t : Task} {owner : Owner} {result : String} {k : Res Bool → Op (List Job)}
    {a : Res Bool} {r : TaskRow} (hr : Reaches P (Careful P) c) (hok : Careful P c (.exec tid o))
    (hf : Fires (machine P) c tid o th
      (.db (.setTaskState t owner .awaitingConfirmation result)) k a s)
    (hid : t.id = T) (hrow : c.shared.db.taskRow T = some r) (hh : DB.held t.id owner r = true)
    (hhead : headCall t = some callID) (hw : s.db.waitsFor T callID = true) :
    Owes P T callID
      (keys (did (.setTaskState t owner .awaitingConfirmation result) a :: th.past)) := by
  have hfire := hr.fired hf
  have hany : c.shared.db.tasks.any (DB.held t.id owner) = true :=
    List.any_eq_true.mpr ⟨r, row_mem hrow, hh⟩
  have hlost : o.isLost = false := by
    have hg := guarded.exec hok hf
    dsimp only [pausesSafely] at hg
    simpa [hany] using hg
  rcases answer_told hf.answer hlost with rfl | ⟨locked, -, rfl⟩
  · -- It was running.
    obtain ⟨r', hr', hst, -⟩ := DB.waitsFor_iff.mp hw
    cases Option.some.inj (hrow.symm.trans hr')
    exact absurd ((DB.held_iff.mp hh).2.2.symm.trans hst) (by simp)
  · rw [setTaskState_told hfire.keys hrow hh]
    refine .of_opens rfl ⟨hid, hhead⟩ (fun h => h.elim) ?_
    have hnil : keys th.past = [] := (hfire.does.pause_inv (.inl rfl)).1
    simp [hnil]

variable {i : Instr} {k : Answer i → Op (List Job)} {a : Answer i}

section

variable (hr : Reaches P (Careful P) c) (hok : Careful P c (.exec tid o))
include hr hok

/-- A conversation that settles a confirmation owes its task the outcome. -/
theorem Careful.settle {k₀ id : UUID} {turn : ℤ} {confirm : Bool}
    {k : Res Confirmation → Op (List Job)} {a : Res Confirmation}
    (hf : Fires (machine P) c tid o th (.db (.settle k₀ id turn confirm)) k a s)
    (hc : c.shared.db.confirmationRow id = some conf) (ha : asksFor T callID conf = true)
    (hs : DB.settleable k₀ id turn confirm c.shared.now conf = true)
    (hn : s.db.confirmationRow id ≠ some conf) :
    Owes P T callID (keys (did (.settle k₀ id turn confirm) a :: th.past)) := by
  have hfire := hr.fired hf
  obtain ⟨htask, hcall, -⟩ := asksFor_iff.mp ha
  have hany : (c.shared.db.confirmations.any fun conf =>
      DB.settleable k₀ id turn confirm c.shared.now conf && conf.taskID.isSome) = true :=
    List.any_eq_true.mpr ⟨conf, row_mem hc, by simp [hs, htask]⟩
  have hlost : o.isLost = false := by
    have hg := guarded.exec hok hf
    dsimp only [pausesSafely] at hg
    simpa [hany] using hg
  rcases answer_told hf.answer hlost with rfl | ⟨locked, -, rfl⟩
  · exact absurd hc hn
  · rw [settle_runs hfire.keys hc hs]
    have hread : (decodeAction P conf.action).isSome = true :=
      hr.lawful.1.readable (hr.lawful.2 ▸ hc)
    refine .of_opens rfl ⟨htask, hcall, hread⟩ (fun h => h.elim) ?_
    have hnil : keys th.past = [] := hfire.does.settle_inv
    simp [hnil]

/-- A round of `maintenance` that expires a confirmation owes its task the outcome. -/
theorem Careful.expire {k : Res (List Confirmation) → Op (List Job)} {a : Res (List Confirmation)}
    {id : UUID} (hf : Fires (machine P) c tid o th (.db .expireConfirmations) k a s)
    (hc : c.shared.db.confirmationRow id = some conf) (ha : asksFor T callID conf = true)
    (hs : DB.overdue c.shared.now conf = true) (hn : s.db.confirmationRow id ≠ some conf) :
    Owes P T callID (keys (did .expireConfirmations a :: th.past)) := by
  have hfire := hr.fired hf
  obtain ⟨htask, hcall, -⟩ := asksFor_iff.mp ha
  have hany : (c.shared.db.confirmations.any fun conf =>
      DB.overdue c.shared.now conf && conf.taskID.isSome) = true :=
    List.any_eq_true.mpr ⟨conf, row_mem hc, by simp [hs, htask]⟩
  have hlost : o.isLost = false := by
    have hg := guarded.exec hok hf
    dsimp only [pausesSafely] at hg
    simpa [hany] using hg
  rcases answer_told hf.answer hlost with rfl | ⟨locked, -, rfl⟩
  · exact absurd hc hn
  · refine .of_opens rfl ⟨{ conf with state := .expired }, ?_, htask, hcall⟩ (fun h => h.elim)
      fun y hy => hfire.does.expireConfirmations_inv y hy T callID
    exact mem_returning.mpr ⟨conf, row_mem hc, hs, rfl⟩

/-- A thread that makes the second request of a pair ends the wait. -/
theorem Careful.closes (hf : Fires (machine P) c tid o th i k a s)
    (hu : c.shared.db.unasked T callID = true) (hu' : s.db.unasked T callID = true) :
    ¬ Orchestrator.closes T callID i := by
  intro hcl
  have hg := guarded.exec hok hf
  simp only [DB.unasked, Bool.and_eq_true, Bool.not_eq_true'] at hu'
  unfold Orchestrator.closes at hcl
  split at hcl
  · -- The task is resumed, so it no longer waits.
    obtain ⟨rfl, rfl⟩ := hcl
    dsimp only [pausesSafely] at hg
    have hfail : o.fails = false := by simpa [hu] using hg
    obtain ⟨locked, hs⟩ := answer_runs hf.answer hfail
    simp only [DB.unasked, Bool.and_eq_true] at hu
    obtain ⟨r, hrow, hst, hhead⟩ := DB.waitsFor_iff.mp hu.1
    obtain ⟨r', hrow', hst', -⟩ := DB.waitsFor_iff.mp hu'.1
    rename_i out
    obtain ⟨t, ht⟩ := hr.completes hrow (hr.agent hrow hst) hhead out
    have hafter := resumeTask_runs (u := .complete _ out) locked c.shared.now hrow
      (DB.waiting_iff.mpr (.inl hst)) ht
    rw [hs] at hrow'
    cases Option.some.inj (hafter.symm.trans hrow')
    rcases Resume.apply_state (u := .complete _ out) ht with h | h | h <;>
      exact absurd (h.symm.trans hst') (by simp)
  · -- The question is put.
    rename_i conf
    obtain ⟨htask, rfl⟩ := hcl
    dsimp only [pausesSafely] at hg
    have hsafe : o.fails = false ∧ c.shared.db.admits conf = true := by
      simpa [htask, hu] using hg
    obtain ⟨locked, hs⟩ := answer_runs hf.answer hsafe.1
    have hrow := (createConfirmation_ok (createConfirmation_admits locked c.shared.now hsafe.2)).2
    rw [hs] at hu'
    have hany := List.any_eq_false.mp hu'.2 _ (row_mem hrow)
    exact hany (asksFor_iff.mpr ⟨htask, rfl, rfl⟩)
  · exact hcl

/-- **Whenever a task waits and the user cannot answer**, it did so before, and the thread that made
the request goes on owing what it owed; or that thread owes it now. -/
theorem Careful.fire (hf : Fires (machine P) c tid o th i k a s)
    (hu : s.db.unasked T callID = true) : (c.shared.db.unasked T callID = true ∧
      (Owes P T callID (keys th.past) → Owes P T callID (keys (⟨i, a⟩ :: th.past)))) ∨
    Owes P T callID (keys (⟨i, a⟩ :: th.past)) := by
  have hfire := hr.fired hf
  have hun := hu
  simp only [DB.unasked, Bool.and_eq_true, Bool.not_eq_true'] at hun
  obtain ⟨r', hr', hst, hhead⟩ := DB.waitsFor_iff.mp hun.1
  rcases hfire.waits hr' (DB.waiting_iff.mpr (.inl hst)) with hrow |
    ⟨t, owner, result, r, hid, hq, hrow, hh, -, ht⟩ | ⟨t, -, -, rfl, -, ht⟩
  · by_cases hask : c.shared.db.unasked T callID = true
    · exact .inl ⟨hask, fun ho => ho.cons (Careful.closes hr hok hf hask hu)⟩
    · -- There was a pending confirmation, and now it is pending no longer.
      refine .inr ?_
      have hwaits : c.shared.db.waitsFor T callID = true :=
        DB.waitsFor_iff.mpr ⟨r', hrow, hst, hhead⟩
      have hany : c.shared.db.confirmations.any (asksFor T callID) = true := by
        simpa [DB.unasked, hwaits] using hask
      obtain ⟨conf, hmem, ha⟩ := List.any_eq_true.mp hany
      obtain ⟨htask, hcall, hp⟩ := asksFor_iff.mp ha
      have hc : c.shared.db.confirmationRow conf.id = some conf :=
        hfire.keys.confirmations.row_eq hmem
      obtain ⟨conf', hc', hstep⟩ := hfire.answered.confirmation hc
      have hn : conf'.state ≠ .pending := by
        intro hp'
        have heq : conf'.taskID = conf.taskID ∧ conf'.callID = conf.callID := by
          rcases hstep with rfl | ⟨q, -, hstep⟩
          · exact ⟨rfl, rfl⟩
          · exact ⟨hstep.taskID_eq, hstep.callID_eq⟩
        exact List.any_eq_false.mp hun.2 conf' (row_mem hc')
          (asksFor_iff.mpr ⟨heq.1.trans htask, heq.2.trans hcall, hp'⟩)
      have hne : s.db.confirmationRow conf.id ≠ some conf := by
        intro h
        cases Option.some.inj (hc'.symm.trans h)
        exact hn hp
      rcases hfire.settles hc hc' hp hn htask with ⟨k₀, turn, confirm, hq, hset⟩ | ⟨hq, hover⟩ |
        ⟨r, hr, hcan⟩
      · obtain rfl : i = .db (.settle k₀ conf.id turn confirm) := hq
        exact Careful.settle hr hok hf hc ha hset hne
      · obtain rfl : i = .db .expireConfirmations := hq
        exact Careful.expire hr hok hf hc ha hover hne
      · cases Option.some.inj (hr.symm.trans hr')
        rw [hst] at hcan
        cases hcan
  · rw [hst] at hq
    obtain rfl : i = .db (.setTaskState t owner .awaitingConfirmation result) := hq
    exact .inr (Careful.pause hr hok hf hid hrow hh (ht ▸ hhead) hun.1)
  · exact absurd (ht.symm.trans hst) (by simp)

end

end Fire

/-- A thread that owes a task an answer or the question is bound to give it. -/
theorem Owes.inevitable {q : Op (List Job)} (h : Owes P T callID (keys past))
    (hs : q.Spec (fun past i => Does P j (keys past) i)
      (fun past js => Ends P j (keys past) js) past) : q.Inevitable (closes T callID) := by
  obtain ⟨⟨y, hy, ho⟩, hc⟩ := h
  -- Only key requests give answers.
  have hkey : ∀ i, closes T callID i → i.key = true := by
    intro i hi
    unfold closes at hi
    split at hi
    · rfl
    · rfl
    · exact hi.elim
  refine hs.inevitable (fun x hx hx' => hc x (List.mem_filter.mpr ⟨hx, hkey x.1 hx'⟩) hx') ?_
  intro past' js hsuf hE
  by_contra hno
  refine hE.quiet.answered T callID ⟨⟨y, ?_, ho⟩, fun x hx hx' => hno ⟨x, ?_, hx'⟩⟩
  · obtain ⟨hy, hyk⟩ := List.mem_filter.mp hy
    exact List.mem_filter.mpr ⟨hsuf.subset hy, hyk⟩
  · exact (List.mem_filter.mp hx).1

/-- **Every task that waits for a confirmation can go on.** In every run in which no pair of
statements is torn apart: a task in `awaiting_confirmation` has a pending confirmation for its first
pending call, or a thread on a live process that is bound to resume it or to ask for one. -/
theorem confirmation_awaited (h : Reaches P (Careful P) c) (hr : c.shared.db.taskRow T = some r)
    (hs : r.state = .awaitingConfirmation) :
    ∃ callID, headCall r.toTask = some callID ∧
      ((∃ conf ∈ c.shared.db.confirmations, conf.taskID = some T ∧ conf.callID = callID ∧
        conf.state = .pending) ∨
      ∃ tid th, c.threads tid = some th ∧ th.proc ∈ c.live ∧
        th.prog.Inevitable (closes T callID)) := by
  obtain ⟨callID, hhead⟩ := h.waits hr (DB.waiting_iff.mpr (.inl hs)) (h.agent hr hs)
  refine ⟨callID, hhead, ?_⟩
  by_cases hany : c.shared.db.confirmations.any (asksFor T callID) = true
  · obtain ⟨conf, hmem, ha⟩ := List.any_eq_true.mp hany
    exact .inl ⟨conf, hmem, asksFor_iff.mp ha⟩
  · have hserved := Reach.served body_spec h
      (D := fun s (x : UUID × String) => s.db.unasked x.1 x.2 = true)
      (L := fun _ past x => Owes P x.1 x.2 (keys past))
      (fun x hx => by cases hx)
      (fun j past js x hE => hE.quiet.answered x.1 x.2)
      (fun c tid o th i k a s hr hok hf x hx => Careful.fire hr hok hf hx)
      (fun c v s x _ hv hx => World.step_db hv ▸ hx)
      (fun c p tid th x hok hth hp hx => hok tid th hth hp x.1 x.2 hx)
    have hun : c.shared.db.unasked T callID = true := by
      have hw : c.shared.db.waitsFor T callID = true := DB.waitsFor_iff.mpr ⟨r, hr, hs, hhead⟩
      simpa [DB.unasked, hw] using hany
    obtain ⟨tid, th, hth, ho⟩ := hserved (T, callID) hun
    exact .inr ⟨tid, th, hth, h.proc_live hth, ho.inevitable (h.threads.spec tid th hth)⟩

/-- A task waits for a confirmation. -/
def hasPaused (c : Cfg) : Bool := c.shared.db.tasks.any fun r => r.state = .awaitingConfirmation

/-- A task that waits, and whose question is about to be stored. -/
theorem confirmation_awaited_run : ∃ c T r callID, Reaches sample (Careful sample) c ∧
    c.shared.db.taskRow T = some r ∧ r.state = .awaitingConfirmation ∧
    headCall r.toTask = some callID ∧
    ((∃ conf ∈ c.shared.db.confirmations, conf.taskID = some T ∧ conf.callID = callID ∧
      conf.state = .pending) ∨
    ∃ tid th, c.threads tid = some th ∧ th.proc ∈ c.live ∧
      th.prog.Inevitable (closes T callID)) := by
  have hrun : ((machine sample).run (checked pausesSafely) start
      (opening ++ starting ++ working ++ commits 7 1)).any hasPaused = true := by
    decide +kernel
  obtain ⟨c, hc, hany⟩ := reaches_of_run hrun
  obtain ⟨r, hmem, hst⟩ := List.any_eq_true.mp hany
  have hrow : c.shared.db.taskRow r.id = some r := (Reaches.keyed hc).tasks.row_eq hmem
  obtain ⟨callID, hhead, h⟩ := confirmation_awaited hc hrow (of_decide_eq_true hst)
  exact ⟨c, r.id, r, callID, hc, hrow, of_decide_eq_true hst, hhead, h⟩

/-! ## What happens otherwise -/

/-- The worker's process stops after it has put the task to `awaiting_confirmation`. -/
def tornRun : List Lbl :=
  opening ++ starting ++ working ++ commits 7 1 ++ [.stop 0]

/-- A task waits for a confirmation, there is none, and no process is live. -/
def isStranded (c : Cfg) : Bool :=
  hasPaused c && c.shared.db.confirmations.isEmpty && c.live.isEmpty

/-- The task waits for a question that nobody will store. -/
theorem confirmation_never_asked : ∃ c T r, Reachable sample c ∧
    c.shared.db.taskRow T = some r ∧ r.state = .awaitingConfirmation ∧
    c.shared.db.confirmations = [] ∧ ∀ tid, c.threads tid = none := by
  have hrun : ((machine sample).run anything start tornRun).any isStranded = true := by
    decide +kernel
  obtain ⟨c, hc, hst⟩ := reachable_of_run hrun
  simp only [isStranded, Bool.and_eq_true, List.isEmpty_iff] at hst
  obtain ⟨⟨hpaused, hnone⟩, hlive⟩ := hst
  obtain ⟨r, hmem, hr⟩ := List.any_eq_true.mp hpaused
  have hrow : c.shared.db.taskRow r.id = some r := (Reaches.keyed hc).tasks.row_eq hmem
  refine ⟨c, r.id, r, hc, hrow, of_decide_eq_true hr, hnone, fun tid => ?_⟩
  cases hth : c.threads tid with
  | none => rfl
  | some th =>
    have hproc := Reach.proc_live hc hth
    rw [hlive] at hproc
    cases hproc

end Jarvis.Orchestrator
