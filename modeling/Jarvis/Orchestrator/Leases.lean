import Jarvis.Orchestrator.Progress

/-!
# The task state machine

Workers, renewals, resumptions and cancellations in any order, with leases running out at any time:
what each of them may do to a task (`Orderly`), and that only the worker with the most recent lease
changes a running task (`LastLease`).
-/

namespace Jarvis.Orchestrator

open Interleave Engine

variable {P : Params} {tr : List Ev} {e : Ev} {id : UUID}

/-! ## Leases -/

/-- The event is a `LeaseTask` of the worker, and took the task. -/
def Takes (id : UUID) (owner : Owner) (e : Ev) : Prop :=
  ∃ duration r r', e.act.1 = .db (.leaseTask owner duration) ∧ e.before.db.taskRow id = some r ∧
    e.after.db.taskRow id = some r' ∧ r' ≠ r

/-- The most recent lease of the task is the worker's. -/
def LastLease (id : UUID) (owner : Owner) (tr : List Ev) : Prop :=
  ∃ l e l', tr = l ++ e :: l' ∧ Takes id owner e ∧ ∀ x ∈ l, ∀ o, ¬ Takes id o x

variable {owner o o' : Owner} {r : TaskRow} {now : Time}

theorem LastLease.cons (h : LastLease id owner tr) (he : ∀ o, ¬ Takes id o e) :
    LastLease id owner (e :: tr) := by
  obtain ⟨l, x, l', rfl, hx, hl⟩ := h
  exact ⟨e :: l, x, l', rfl, hx, by simpa using ⟨he, hl⟩⟩

theorem Takes.unique (h : Takes id o e) (h' : Takes id o' e) : o = o' := by
  obtain ⟨_, _, _, hq, -⟩ := h
  obtain ⟨_, _, _, hq', -⟩ := h'
  cases hq.symm.trans hq'
  rfl

/-- At most one worker has the most recent lease. -/
theorem LastLease.unique (h : LastLease id o tr) (h' : LastLease id o' tr) :
    o = o' := by
  obtain ⟨l, x, t, rfl, hx, hl⟩ := h
  obtain ⟨l', x', t', htr, hx', hl'⟩ := h'
  rcases List.append_eq_append_iff.mp htr with ⟨m, rfl, hm⟩ | ⟨m, rfl, hm⟩
  · cases m with
    | nil =>
      cases hm
      exact hx.unique hx'
    | cons y m =>
      cases hm
      exact absurd hx (hl' x (by simp) o)
  · cases m with
    | nil =>
      cases hm
      exact hx.unique hx'
    | cons y m =>
      cases hm
      exact absurd hx' (hl x' (by simp) o')

theorem not_takes (h : e.before.db.taskRow id = some r) (h' : e.after.db.taskRow id = some r)
    (o : Owner) : ¬ Takes id o e := by
  rintro ⟨_, r₁, r₂, -, hr₁, hr₂, hne⟩
  rw [h] at hr₁
  rw [h'] at hr₂
  cases hr₁
  cases hr₂
  exact hne rfl

theorem not_takes_of_ne (h : ∀ o duration, e.act.1 ≠ .db (.leaseTask o duration)) (o : Owner) :
    ¬ Takes id o e := by
  rintro ⟨duration, _, _, hq, -⟩
  exact h o duration hq

/-- Taking a task changes its row: whatever lease it had has run out. -/
theorem lease_ne (h : DB.runnable now r = true) :
    DB.lease owner taskLease now r ≠ r := by
  intro heq
  have hstate : r.state = .running := by rw [← heq]; rfl
  have huntil : r.leaseUntil = some (now + taskLease) := by rw [← heq]; rfl
  have hlt : now + taskLease < now := by simpa [DB.runnable, hstate, huntil] using h
  exact absurd hlt (Int.not_lt.mpr (Int.le_add_of_nonneg_right (by decide)))

/-- **A running task is leased to the worker with the most recent lease.** -/
theorem Lawful.last_lease (h : Lawful P tr) (hr : (dbOf tr).taskRow id = some r)
    (hrun : r.state = .running) : ∃ o, r.leaseOwner = some o ∧ LastLease id o tr := by
  induction h generalizing r with
  | nil => cases hr
  | @cons x tr tail does answered db job ih =>
    cases hrow : (dbOf tr).taskRow id with
    | none =>
      rcases answered.no_task (db ▸ hrow) with hn | ⟨t, hq, -, ht⟩
      · rw [dbOf, hn] at hr
        cases hr
      · -- A new task is not running.
        rw [dbOf, ht] at hr
        cases hr
        rw [hq] at does
        rcases does.createTask_inv with ⟨-, hs, -⟩ | ⟨-, hs, -⟩ <;>
          exact absurd (hs.symm.trans hrun) (by simp)
    | some r₀ =>
      obtain ⟨r₁, hr₁, hs⟩ := answered.task (db ▸ tail.keys) (db ▸ hrow)
      obtain rfl : r₁ = r := Option.some.inj (hr₁.symm.trans hr)
      -- A row whose lease the event leaves alone.
      have keep : ∀ (_ : r₀.state = .running) (_ : r₁.leaseOwner = r₀.leaseOwner)
          (_ : ∀ o, ¬ Takes id o x), ∃ o, r₁.leaseOwner = some o ∧ LastLease id o (x :: tr) := by
        intro hrun₀ howner hnt
        obtain ⟨o, ho, hl⟩ := ih hrow hrun₀
        exact ⟨o, howner.trans ho, hl.cons hnt⟩
      rcases hs with rfl | ⟨q, hq, hs⟩
      · exact keep hrun rfl (not_takes (db ▸ hrow) hr₁)
      · cases hs with
        | same => exact keep hrun rfl (not_takes (db ▸ hrow) hr₁)
        | @lease owner duration hrunnable =>
          rw [hq] at does
          obtain rfl := does.leaseTask_inv.2.2
          exact ⟨owner, rfl, [], x, tr, rfl,
            ⟨_, r₀, _, hq, db ▸ hrow, hr₁, lease_ne hrunnable⟩, by simp⟩
        | renew | save => exact keep hrun rfl (not_takes_of_ne (by simp [hq]))
        | setState hh =>
          rw [hq] at does
          have hrun : _ = TaskState.running := hrun
          rcases does.setTaskState_inv with ⟨_, _, _, _, rfl, _⟩ | ⟨_, _, _, _, _,
            ⟨rfl, _⟩ | ⟨_, _, _, _, _, rfl, _⟩ | ⟨_, _, _, _, _, rfl | rfl, _⟩⟩ <;> cases hrun
        | resume hw ht =>
          rcases Resume.apply_state ht with hst | hst | hst <;>
            exact absurd (hst.symm.trans hrun) (by simp)
        | cancel hc => cases hrun

/-! ## What an event may do to a task -/

/-- What an event `e` after the events `past` may make of the row of a task. -/
structure Orderly (id : UUID) (e : Ev) (past : List Ev) (r r' : TaskRow) : Prop where
  /-- A task that has ended stays as it is. -/
  ended : r.state.terminal = true →
    r'.state = r.state ∧ r'.result = r.result ∧ r'.history = r.history
  /-- A running task is changed only by the worker with the most recent lease, or cancelled. -/
  running : r.state = .running → (r'.history ≠ r.history ∨ r'.pending ≠ r.pending ∨
    r'.steps ≠ r.steps ∨ r'.state ≠ r.state) →
    (∃ o, workerOf e.job = some o ∧ LastLease id o past) ∨
      ∃ tenant user, e.act.1 = .db (.cancelTask tenant user id)
  /-- A lease is taken over only after it ran out. -/
  takeover : r.state = .running → ∀ o, Takes id o e →
    ∃ u, r.leaseUntil = some u ∧ u < e.before.now
  /-- A task that waits goes on only by `ResumeTask` or `CancelTask`. -/
  waiting : r.state = .awaitingConfirmation ∨ r.state = .awaitingApproval → r'.state ≠ r.state →
    (∃ u, e.act.1 = .db (.resumeTask id u)) ∨
      ∃ tenant user, e.act.1 = .db (.cancelTask tenant user id)
  /-- Steps are only added. -/
  steps : r.steps ≤ r'.steps

/-- An event that leaves the row alone is orderly. -/
theorem Orderly.refl (hr : e.before.db.taskRow id = some r) (hr' : e.after.db.taskRow id = some r) :
    Orderly id e past r r where
  ended _ := ⟨rfl, rfl, rfl⟩
  running _ hne := by simp at hne
  takeover _ o ht := absurd ht (not_takes hr hr' o)
  waiting _ hne := absurd rfl hne
  steps := le_rfl

theorem DB.runnable_iff : DB.runnable now r = true ↔
    r.state = .queued ∨ (r.state = .running ∧ ∃ u, r.leaseUntil = some u ∧ u < now) := by
  simp [DB.runnable, Option.any_eq_true]

/-- A worker that writes a row has the most recent lease. -/
theorem Lawful.writer (h : Lawful P tr) (hr : (dbOf tr).taskRow id = some r) {t : Task}
    (hh : DB.held t.id owner r = true) :
    LastLease id owner tr := by
  obtain ⟨-, howner, hrun⟩ := DB.held_iff.mp hh
  obtain ⟨o, ho, hl⟩ := h.last_lease hr hrun
  obtain rfl : owner = o := Option.some.inj (howner.symm.trans ho)
  exact hl

/-- **Every event is orderly.** -/
theorem Lawful.orderly (h : Lawful P (e :: tr)) (hr : e.before.db.taskRow id = some r)
    (hgrow : ∀ r', e.after.db.taskRow id = some r' → Grows r r') :
    ∃ r', e.after.db.taskRow id = some r' ∧ Orderly id e tr r r' := by
  cases h with
  | cons tail does answered db job =>
    obtain ⟨r', hr', hs⟩ := answered.task (db ▸ tail.keys) hr
    refine ⟨r', hr', ?_⟩
    have hsteps := (hgrow r' hr').1
    have hid := DB.taskRow_id hr
    rcases hs with rfl | ⟨q, hq, hs⟩
    · exact .refl hr hr'
    · rw [hq] at does
      have hended : r.state.terminal = true →
          r'.state = r.state ∧ r'.result = r.result ∧ r'.history = r.history := by
        intro ht
        rw [hs.ended ht]
        exact ⟨rfl, rfl, rfl⟩
      cases hs with
      | same => exact .refl hr hr'
      | lease hrun =>
        have hrun := DB.runnable_iff.mp hrun
        refine ⟨hended, fun hst hne => ?_, fun hst o _ => ?_, fun hw _ => ?_, hsteps⟩
        · rcases hne with hne | hne | hne | hne
          · exact absurd rfl hne
          · exact absurd rfl hne
          · exact absurd rfl hne
          · exact absurd hst.symm hne
        · exact (hrun.resolve_left (by simp [hst])).2
        · rcases hrun with h | ⟨h, -⟩ <;> simp [h] at hw
      | renew hh =>
        exact ⟨hended, fun _ hne => by simp at hne,
          fun _ o ht => absurd ht (not_takes_of_ne (by simp [hq]) o),
          fun _ hne => absurd rfl hne, hsteps⟩
      | @save t owner hh =>
        obtain ⟨_, _, _, _, hj, -⟩ := does.saveProgress_inv
        refine ⟨hended, fun _ _ => .inl ⟨owner, by rw [hj]; rfl, tail.writer (db ▸ hr) hh⟩,
          fun _ o ht => absurd ht (not_takes_of_ne (by simp [hq]) o), fun hw _ => ?_, hsteps⟩
        simp [(DB.held_iff.mp hh).2.2] at hw
      | @setState t owner state result hh =>
        have hwork : workerOf e.job = some owner := by
          rcases does.setTaskState_inv with ⟨_, hj, -⟩ | ⟨_, _, _, _, hj, -⟩ <;> rw [hj] <;> rfl
        refine ⟨hended, fun _ _ => .inl ⟨owner, hwork, tail.writer (db ▸ hr) hh⟩,
          fun _ o ht => absurd ht (not_takes_of_ne (by simp [hq]) o), fun hw _ => ?_, hsteps⟩
        simp [(DB.held_iff.mp hh).2.2] at hw
      | @resume u t hw ht =>
        have hw : r.state = .awaitingConfirmation ∨ r.state = .awaitingApproval := by
          simpa [DB.waiting] using hw
        refine ⟨hended, fun hst => ?_,
          fun _ o ht => absurd ht (not_takes_of_ne (by simp [hq]) o),
          fun _ _ => .inl ⟨u, by rw [hq, hid]⟩, hsteps⟩
        rcases hw with h | h <;> simp [h] at hst
      | @cancel tenant user hc =>
        exact ⟨hended, fun _ _ => .inr ⟨tenant, user, by rw [hq, hid]⟩,
          fun _ o ht => absurd ht (not_takes_of_ne (by simp [hq]) o),
          fun _ _ => .inr ⟨tenant, user, by rw [hq, hid]⟩, hsteps⟩

/-- **The task state machine.** In every run, tasks change only by events, and each event is orderly
for each task; the stored steps never exceed the maximum; a running task is leased to the worker
with the most recent lease, there is at most one such worker, and each worker is one thread. -/
theorem task_state_machine {c : Cfg} (h : Reachable P c) :
    c.shared.db = dbOf c.trace ∧
    (∀ later e past, c.trace = later ++ e :: past → e.before.db = dbOf past ∧
      ∀ id r, e.before.db.taskRow id = some r →
        ∃ r', e.after.db.taskRow id = some r' ∧ Orderly id e past r r') ∧
    (∀ id r, c.shared.db.taskRow id = some r → r.steps ≤ P.opts.taskMaxSteps ∧
      (r.state = .running → ∃ o, r.leaseOwner = some o ∧ LastLease id o c.trace)) ∧
    (∀ id o o', LastLease id o c.trace → LastLease id o' c.trace → o = o') ∧
    ∀ o tid tid' th th', c.threads tid = some th → c.threads tid' = some th' →
      workerOf th.job = some o → workerOf th'.job = some o → tid = tid' := by
  obtain ⟨hl, hdb⟩ := h.lawful
  obtain ⟨⟨hsound, hgrow⟩, -⟩ := h.progress
  refine ⟨hdb, fun later e past htr => ?_,
    fun id r hr => ⟨(hsound id r hr).steps, fun hrun => hl.last_lease (hdb ▸ hr) hrun⟩,
    fun id o o' => LastLease.unique,
    fun o tid tid' th th' hth hth' => h.workers.unique tid tid' th th' o hth hth'⟩
  have he : e ∈ c.trace := by simp [htr]
  rw [htr] at hl
  exact ⟨hl.tail_of_append.before_db,
    fun id r hr => hl.tail_of_append.orderly hr fun r' hr' => hgrow e he id r r' hr hr'⟩

/-- A task is running after one step of the model. -/
def hasStepped (c : Cfg) : Bool :=
  c.shared.db.tasks.any fun r => decide (r.state = .running ∧ r.steps = 1)

/-- A task runs under the lease of one worker. -/
theorem task_state_machine_run : ∃ c id r o, Reachable sample c ∧
    c.shared.db.taskRow id = some r ∧ r.state = .running ∧ r.steps = 1 ∧
    r.leaseOwner = some o ∧ LastLease id o c.trace := by
  have hrun : ((machine sample).run anything start (opening ++ starting ++ working)).any
    hasStepped = true := by
    decide +kernel
  obtain ⟨c, hc, hany⟩ := reachable_of_run hrun
  obtain ⟨r, hr, hst⟩ := List.any_eq_true.mp hany
  have hst := of_decide_eq_true hst
  have hrow : c.shared.db.taskRow r.id = some r := (Reaches.keyed hc).tasks.row_eq hr
  obtain ⟨o, ho, hl⟩ := ((task_state_machine hc).2.2.1 r.id r hrow).2 hst.1
  exact ⟨c, r.id, r, o, hc, hrow, hst.1, hst.2, ho, hl⟩

end Jarvis.Orchestrator
