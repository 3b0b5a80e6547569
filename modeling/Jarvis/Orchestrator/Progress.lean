import Jarvis.Interleave.Roles
import Jarvis.Orchestrator.Trace

/-!
# What workers know of their tasks

A worker keeps a task in memory and writes it back under its lease. While it holds the lease, what
is stored is behind what it has in memory (`Behind`), since nobody else writes; so its next write
only adds. Both what it has in memory and what is stored is a well-formed history
(`WellFormed`): an opening, model steps, and after each step the results of its calls in order.
-/

namespace Jarvis.Orchestrator

open Interleave Engine

variable {P : Params} {tr : List Ev} {e : Ev}

/-! ## Workers -/

/-- Workers are roles: each process gives its own out, and a worker's job hands on to one. -/
theorem worker_roles : Roles (machine P) (fun j past js => Ends P j (keys past) js) workerOf
    Owner.engine where
  request j hj := by cases j <;> first | rfl | cases hj
  daemon p o ho := by
    simp only [machine, daemons, List.filterMap_append, List.filterMap_map, List.mem_append,
      List.mem_filterMap, Function.comp, workerOf] at ho
    rcases ho with ⟨i, -, hi⟩ | ho
    · rw [← Option.some.inj hi]
    · simp at ho
  nodup p := by
    have hmap : (machine P).daemons p = daemons P p := rfl
    have hf : (daemons P p).filterMap workerOf =
        (List.range P.opts.workers).map fun i => (⟨p, i⟩ : Owner) := by
      simp [daemons, List.filterMap_append, List.filterMap_map, Function.comp_def, workerOf,
        List.filterMap_eq_map']
    rw [hmap, hf]
    exact List.nodup_range.map fun i i' h => by simpa using h
  hand j past js hE := by
    rcases hE.worker with h | ⟨o, ho, h⟩
    · simp [h]
    · simp [h, ho]

variable {ok : Cfg → Lbl → Prop} {u : Resume} {t t' : Task} {id : UUID}
  {owner : Owner} {r r' : TaskRow} {locked : List ℕ} {now duration : Time} {db : DB} {j : Job}
  {ks : Log} {q : Query} {callID out : String}

/-- **Each worker is one thread at a time.** -/
theorem Reaches.workers (h : Reaches P ok c) :
    Exclusive workerOf Owner.engine c :=
  Reach.exclusive body_spec worker_roles h

/-! ## What happens to a row -/

/-- No update puts a task to `running`. -/
theorem Resume.apply_state (h : u.apply t = some t') :
    t'.state = .queued ∨ t'.state = .succeeded ∨ t'.state = .failed := by
  have complete : ∀ {callID out : String}, completePending t callID out = some t' →
      t'.state = .queued := by
    intro callID out hc
    obtain ⟨s, -, hs⟩ := Option.bind_eq_some_iff.mp hc
    split at hs
    · cases hs
    · split_ifs at hs
      rw [← Option.some.inj hs]
  cases u with
  | complete callID out => exact .inl (complete h)
  | approved a out =>
    simp only [apply] at h
    split_ifs at h
    · rw [← Option.some.inj h]
      exact .inr (.inl rfl)
    · exact .inl (complete h)
  | dropped a why out =>
    simp only [apply] at h
    split_ifs at h
    · rw [← Option.some.inj h]
      exact .inr (.inr rfl)
    · exact .inl (complete h)

theorem DB.held_iff :
    DB.held id owner r = true ↔ r.id = id ∧ r.leaseOwner = some owner ∧ r.state = .running := by
  simp [DB.held]

/-- **How a row comes to be held**: it was held before and nothing but its lease changed, its worker
has just leased it, or its worker has just saved its progress. -/
theorem Answered.held (h : Answered e) (hk : e.before.db.Keys)
    (hr' : e.after.db.taskRow id = some r') (hh : DB.held id owner r' = true) :
    (∃ r, e.before.db.taskRow id = some r ∧ DB.held id owner r = true ∧ r'.toTask = r.toTask) ∨
    (∃ duration, e.act.1 = .db (.leaseTask owner duration)) ∨
    ∃ t, e.act.1 = .db (.saveProgress t owner) ∧ t.id = id ∧ r'.steps = t.steps ∧
      r'.history = t.history ∧ r'.pending = t.pending := by
  obtain ⟨hid, howner, hrun⟩ := DB.held_iff.mp hh
  cases hr : e.before.db.taskRow id with
  | none =>
    rcases h.no_task hr with hn | ⟨t, -, -, ht⟩
    · rw [hn] at hr'
      cases hr'
    · rw [ht] at hr'
      cases hr'
      cases howner
  | some r =>
    obtain ⟨r₁, hr₁, hs⟩ := h.task hk hr
    obtain rfl : r₁ = r' := Option.some.inj (hr₁.symm.trans hr')
    rcases hs with rfl | ⟨q, hq, hs⟩
    · exact .inl ⟨_, rfl, hh, rfl⟩
    · cases hs with
      | same => exact .inl ⟨_, rfl, hh, rfl⟩
      | lease h =>
        cases howner
        exact .inr (.inl ⟨_, hq⟩)
      | renew h => exact .inl ⟨r, rfl, DB.held_iff.mpr ⟨hid, howner, hrun⟩, rfl⟩
      | @save t o h =>
        obtain ⟨htid, ho, -⟩ := DB.held_iff.mp h
        obtain rfl : owner = o := Option.some.inj (howner.symm.trans ho)
        exact .inr (.inr ⟨t, hq, htid.symm.trans hid, rfl, rfl, rfl⟩)
      | setState h => cases howner
      | resume hw ht =>
        rcases Resume.apply_state ht with hst | hst | hst <;>
          exact absurd (hst.symm.trans hrun) (by simp)
      | cancel h => cases hrun

/-- A task a worker leased. -/
theorem leaseTask_ok (hk : db.Keys)
    (h : ((Query.leaseTask owner duration).exec locked now db).1 = .ok t) :
    ∃ r, db.taskRow r.id = some r ∧ DB.runnable now r = true ∧
      t = (DB.lease owner duration now r).toTask ∧
      ((Query.leaseTask owner duration).exec locked now db).2.taskRow r.id =
        some (DB.lease owner duration now r) := by
  simp only [Query.exec, DB.leaseTask] at h ⊢
  split at h
  · cases h
  · rename_i r hr
    have hmem := List.mem_of_mem_head? hr
    simp only [Table.mem_orderBy, List.mem_filter, Bool.and_eq_true] at hmem
    have hrow : db.taskRow r.id = some r := hk.tasks.row_eq hmem.1
    exact ⟨r, hrow, hmem.2.1, (Except.ok.inj h).symm,
      Table.row_set_pos (fun _ => rfl) hrow (decide_eq_true rfl)⟩

/-- A task a worker put to a state is in it. -/
theorem setTaskState_ok (hk : db.Keys)
    (h : ((Query.setTaskState t owner state result).exec locked now db).1 = .ok true) :
    ∃ r, db.taskRow t.id = some r ∧ DB.held t.id owner r = true ∧
      ((Query.setTaskState t owner state result).exec locked now db).2.taskRow t.id =
        some (DB.released t state result now r) := by
  simp only [Query.exec, DB.setTaskState, Except.ok.injEq, decide_eq_true_eq] at h ⊢
  obtain ⟨r, hr, hh⟩ := List.countP_pos_iff.mp (h ▸ Nat.one_pos)
  have hid := (DB.held_iff.mp hh).1
  have hrow : db.taskRow t.id = some r := hid ▸ hk.tasks.row_eq hr
  exact ⟨r, hrow, hh, Table.row_set_pos (fun _ => rfl) hrow hh⟩

/-- An update of a task that waits takes effect. -/
theorem resumeTask_runs (locked : List ℕ) (now : Time) (hr : db.taskRow id = some r)
    (hw : DB.waiting r = true) (ht : u.apply r.toTask = some t) :
    ((Query.resumeTask id u).exec locked now db).2.taskRow id = some (DB.resumed t now r) := by
  simp only [Query.exec, DB.resumeTask, hr, hw, ht, if_true]
  exact Table.row_set_pos (fun _ => rfl) hr (decide_eq_true (DB.taskRow_id hr))

/-! ## Well-formed histories -/

/-- The model gave this response for a task. -/
def Answers (tr : List Ev) (id : UUID) (resp : DecideResponse) : Prop :=
  ∃ e ∈ tr, ∃ provider items tools, e.act = ⟨.decide id provider items tools, .ok resp⟩

/-- A history and the calls still to run: an opening, steps of the model, and after each step the
results of its calls in order. -/
inductive WellFormed (answers : DecideResponse → Prop) : List Item → List ToolCall → Prop
  | opening (intro : String) : WellFormed answers [.userText intro] []
  | step (h : WellFormed answers items []) (ha : answers resp) :
      WellFormed answers (items ++ [.modelStep resp.step]) resp.toolCalls
  | result (out : String) (h : WellFormed answers items (call :: calls)) :
      WellFormed answers (items ++ [toolResult call.callID out]) calls

theorem WellFormed.mono {answers answers' : DecideResponse → Prop}
    (h : WellFormed answers items calls) (ha : ∀ r, answers r → answers' r) :
    WellFormed answers' items calls := by
  induction h with
  | opening intro => exact .opening intro
  | step _ hr ih => exact .step ih (ha _ hr)
  | result out _ ih => exact .result out ih

theorem Answers.cons (h : Answers tr id resp) :
    Answers (e :: tr) id resp := by
  obtain ⟨x, hx, h⟩ := h
  exact ⟨x, List.mem_cons_of_mem _ hx, h⟩

/-! ## The invariant -/

/-- What is stored of a task. -/
structure Sound (P : Params) (tr : List Ev) (r : TaskRow) : Prop where
  steps : r.steps ≤ P.opts.taskMaxSteps
  agent : r.kind = .agent → ∃ items calls, Stores r.toTask items calls ∧
    WellFormed (Answers tr r.id) items calls
  command : r.kind = .command → decodeCalls r.pending = none ∧ r.state ≠ .queued ∧
    r.state ≠ .running ∧ r.state ≠ .awaitingConfirmation

/-- What is stored is behind what a worker has in memory. -/
def Behind (r : TaskRow) (t : Task) (items : List Item) : Prop :=
  r.steps ≤ t.steps ∧ ∃ items₀ calls₀, Stores r.toTask items₀ calls₀ ∧ items₀ <+: items

/-- What a worker has in memory of a task, with `items` and `calls`. -/
structure Knows (P : Params) (db : DB) (tr : List Ev) (owner : Owner) (t : Task)
    (items : List Item) (calls : List ToolCall) : Prop where
  steps : t.steps ≤ P.opts.taskMaxSteps
  stores : Stores t items calls
  shape : WellFormed (Answers tr t.id) items calls
  behind : ∀ r, db.taskRow t.id = some r → DB.held t.id owner r = true → Behind r t items

/-- What each job knows: a worker that runs a task, the task as it last saved it; a worker that has
just leased one, that. -/
def Knowledge (P : Params) (db : DB) (tr : List Ev) : Job → Log → Prop
  | .runTask owner t items calls _, ks =>
    ((∀ t' r, did (.saveProgress t' owner) r ∉ ks) → Knows P db tr owner t items calls) ∧
      ∀ t' r, did (.saveProgress t' owner) r ∈ ks →
        ∃ items' calls', Knows P db tr owner t' items' calls'
  | .taskWorker owner, ks => ∀ t, did (.leaseTask owner taskLease) (.ok t) ∈ ks →
      ∃ items calls, Knows P db tr owner t items calls
  | _, _ => True

theorem Sound.mono (h : Sound P tr r) : Sound P (e :: tr) r where
  steps := h.steps
  agent hk := by
    obtain ⟨items, calls, hs, hw⟩ := h.agent hk
    exact ⟨items, calls, hs, hw.mono fun _ => Answers.cons⟩
  command := h.command

namespace Knows

variable {items : List Item} {calls : List ToolCall}

/-- Whatever others do, a worker that holds the lease stays ahead. -/
theorem other (h : Knows P e.before.db tr owner t items calls) (ha : Answered e)
    (hk : e.before.db.Keys) (hl : ∀ duration, e.act.1 ≠ .db (.leaseTask owner duration))
    (hs : ∀ t', e.act.1 ≠ .db (.saveProgress t' owner)) :
    Knows P e.after.db (e :: tr) owner t items calls where
  steps := h.steps
  stores := h.stores
  shape := h.shape.mono fun _ => Answers.cons
  behind r' hr' hh := by
    rcases ha.held hk hr' hh with ⟨r, hr, hheld, heq⟩ | ⟨duration, hq⟩ | ⟨t', hq, -⟩
    · obtain ⟨hsteps, items₀, calls₀, hst, hpre⟩ := h.behind r hr hheld
      refine ⟨?_, items₀, calls₀, ?_, hpre⟩
      · rw [heq]
        exact hsteps
      · rw [heq]
        exact hst
    · exact absurd hq (hl duration)
    · exact absurd hq (hs t')

/-- A worker that adds to what it knows and saves it knows what it saved. -/
theorem save (h : Knows P e.before.db tr owner t items calls) (ha : Answered e)
    (hk : e.before.db.Keys) (hq : e.act.1 = .db (.saveProgress t' owner)) (hid : t'.id = t.id)
    (hle : t.steps ≤ t'.steps) (hmax : t'.steps ≤ P.opts.taskMaxSteps)
    (hs : Stores t' items' calls') (hpre : items <+: items')
    (hw : WellFormed (Answers tr t.id) items' calls') :
    Knows P e.after.db (e :: tr) owner t' items' calls' where
  steps := hmax
  stores := hs
  shape := by
    rw [hid]
    exact hw.mono fun _ => Answers.cons
  behind r' hr' hh := by
    rcases ha.held hk hr' hh with ⟨r, hr, hheld, heq⟩ | ⟨duration, hq'⟩ | ⟨t₁, hq', -, h₁, h₂, h₃⟩
    · rw [hid] at hr hheld
      obtain ⟨hsteps, items₀, calls₀, hst, hpre₀⟩ := h.behind r hr hheld
      refine ⟨?_, items₀, calls₀, ?_, hpre₀.trans hpre⟩
      · rw [heq]
        exact hsteps.trans hle
      · rw [heq]
        exact hst
    · rw [hq] at hq'
      cases hq'
    · rw [hq] at hq'
      cases hq'
      exact ⟨h₁.le, items', calls', ⟨h₂.trans hs.1, h₃.trans hs.2⟩, List.prefix_rfl⟩

end Knows

/-- **Whatever a worker writes adds to what it knows.** -/
theorem Knowledge.write (h : Knowledge P db tr j ks) (hd : Does P j ks (.db q))
    (hq : q = .saveProgress t' owner ∨ ∃ state result, q = .setTaskState t' owner state result)
    (hks : ∀ x ∈ ks, ∃ e ∈ tr, e.act = x) :
    ∃ t items calls items' calls', Knows P db tr owner t items calls ∧ t'.id = t.id ∧
      t.steps ≤ t'.steps ∧ t'.steps ≤ P.opts.taskMaxSteps ∧ Stores t' items' calls' ∧
      items <+: items' ∧ WellFormed (Answers tr t.id) items' calls' := by
  -- The response of a step is one the model gave.
  have answers : ∀ {t : Task} {items : List Item} {resp : DecideResponse},
      ks = [⟨decideCall t items, .ok resp⟩] → Answers tr t.id resp := by
    rintro t items resp rfl
    obtain ⟨e, he, hact⟩ := hks _ (List.mem_singleton_self _)
    exact ⟨e, he, _, _, _, hact⟩
  rcases hq with rfl | ⟨state, result, rfl⟩
  · obtain ⟨t, items, calls, n, rfl, hcase⟩ := hd.saveProgress_inv
    have hnosave : ∀ t' r, did (.saveProgress t' owner) r ∉ ks := by
      rcases hcase with ⟨_, _, _, _, rfl, _⟩ | ⟨_, _, rfl, _⟩ <;> simp
    have hK := h.1 hnosave
    rcases hcase with ⟨call, rest, out, rfl, -, rfl⟩ | ⟨resp, rfl, hk, hlt, -, rfl⟩
    · exact ⟨t, items, _, _, _, hK, rfl, le_rfl, hK.steps, ⟨rfl, rfl⟩, List.prefix_append _ _,
        hK.shape.result out⟩
    · exact ⟨t, items, _, _, _, hK, rfl, Nat.le_succ _, hlt, ⟨rfl, rfl⟩, List.prefix_append _ _,
        hK.shape.step (answers hk)⟩
  · rcases hd.setTaskState_inv with ⟨t, rfl, rfl, hnone, -⟩ | ⟨t, items, calls, n, rfl, hcase⟩
    · -- What was leased can be read.
      obtain ⟨items, calls, hK⟩ := h t (List.mem_singleton_self _)
      rw [hK.stores.decodeState] at hnone
      cases hnone
    · have hnosave : ∀ t' r, did (.saveProgress t' owner) r ∉ ks := by
        rcases hcase with ⟨_, _, rfl | ⟨_, rfl⟩⟩ | ⟨_, _, rfl, _⟩ | ⟨_, _, _, rfl, _⟩ <;> simp
      have hK := h.1 hnosave
      rcases hcase with ⟨-, rfl, -⟩ | ⟨resp, rfl, hk, hlt, hnil, -, rfl⟩ |
        ⟨call, rest, -, -, -, -, rfl⟩
      · exact ⟨t, items, calls, items, calls, hK, rfl, le_rfl, hK.steps, ⟨rfl, rfl⟩,
          List.prefix_rfl, hK.shape⟩
      · refine ⟨t, items, _, _, [], hK, rfl, Nat.le_succ _, hlt, ⟨rfl, rfl⟩,
          List.prefix_append _ _, ?_⟩
        have hstep := hK.shape.step (answers hk)
        rwa [hnil] at hstep
      · exact ⟨t, items, calls, items, calls, hK, rfl, le_rfl, hK.steps, ⟨rfl, rfl⟩,
          List.prefix_rfl, hK.shape⟩

/-- What an event makes of a stored task: it only adds. -/
def Grows (r r' : TaskRow) : Prop :=
  r.steps ≤ r'.steps ∧ ∀ items calls, Stores r.toTask items calls →
    ∃ items' calls', Stores r'.toTask items' calls' ∧ items <+: items'

theorem Grows.refl (hs : r'.steps = r.steps) (hh : r'.history = r.history)
    (hp : r'.pending = r.pending) : Grows r r' :=
  ⟨hs.ge, fun items calls h => ⟨items, calls, ⟨hh.trans h.1, hp.trans h.2⟩, List.prefix_rfl⟩⟩

/-- Only an agent's task has pending calls to complete. -/
theorem Sound.agent_of_complete (h : Sound P tr r)
    (ht : completePending r.toTask callID out = some t) : r.kind = .agent := by
  cases hk : r.kind with
  | agent => rfl
  | command =>
    have hnone : decodeState r.toTask = none := by
      simp [decodeState, (h.command hk).1]
    simp [completePending, hnone] at ht

/-- An update that answers the pending call adds its result. -/
theorem completePending_sound (h : Sound P tr r)
    (ht : completePending r.toTask callID out = some t) :
    Sound P tr (DB.resumed t now r) ∧ Grows r (DB.resumed t now r) := by
  have hagent := h.agent_of_complete ht
  obtain ⟨items, calls, hs, hw⟩ := h.agent hagent
  obtain ⟨call, rest, rfl, rfl, rfl⟩ := completePending_eq hs ht
  refine ⟨⟨h.steps, fun _ => ⟨_, rest, ⟨rfl, rfl⟩, hw.result out⟩, fun hc => ?_⟩, le_rfl, ?_⟩
  · exact absurd (hagent.symm.trans hc) (by simp)
  · intro items₁ calls₁ hs₁
    obtain ⟨rfl, -⟩ := hs.unique hs₁
    exact ⟨_, rest, ⟨rfl, rfl⟩, List.prefix_append _ _⟩

/-- What an update makes of a sound task that waits. -/
theorem Sound.resume (h : Sound P tr r) (ht : u.apply r.toTask = some t) :
    Sound P tr (DB.resumed t now r) ∧ Grows r (DB.resumed t now r) := by
  -- A command's task ends, with its history as it is.
  have ends : ∀ state result, (state = .succeeded ∨ state = .failed) → r.kind = .command →
      { r.toTask with state, result } = t →
      Sound P tr (DB.resumed t now r) ∧ Grows r (DB.resumed t now r) := by
    rintro state result hst hk rfl
    refine ⟨⟨h.steps, fun ha => absurd (hk.symm.trans ha) (by simp), fun _ => ?_⟩,
      .refl rfl rfl rfl⟩
    refine ⟨(h.command hk).1, ?_⟩
    rcases hst with rfl | rfl <;> simp [DB.resumed]
  cases u with
  | complete callID out => exact completePending_sound h ht
  | approved a out =>
    simp only [Resume.apply] at ht
    split_ifs at ht with hk
    · exact ends .succeeded out (.inl rfl) hk (Option.some.inj ht)
    · exact completePending_sound h ht
  | dropped a why out =>
    simp only [Resume.apply] at ht
    split_ifs at ht with hk
    · exact ends .failed why (.inr rfl) hk (Option.some.inj ht)
    · exact completePending_sound h ht

/-- A statement keeps a stored task sound and only adds to it, if what workers write does. -/
theorem TaskStep.sound (hs : TaskStep now r q r') (h : Sound P tr r)
    (hwrite : ∀ t owner, (q = .saveProgress t owner ∨ ∃ state result,
      q = .setTaskState t owner state result) → DB.held t.id owner r = true →
      t.steps ≤ P.opts.taskMaxSteps ∧ r.steps ≤ t.steps ∧ ∃ items calls, Stores t items calls ∧
        WellFormed (Answers tr r.id) items calls ∧
        ∀ items₀ calls₀, Stores r.toTask items₀ calls₀ → items₀ <+: items) :
    Sound P tr r' ∧ Grows r r' := by
  have hcommand : r.state = .running → r.kind ≠ .command := fun hr hk => (h.command hk).2.2.1 hr
  cases hs with
  | same => exact ⟨h, .refl rfl rfl rfl⟩
  | lease hr =>
    refine ⟨⟨h.steps, h.agent, fun hk => ?_⟩, .refl rfl rfl rfl⟩
    simp only [DB.runnable, Bool.or_eq_true, Bool.and_eq_true, decide_eq_true_eq] at hr
    rcases hr with hr | ⟨hr, -⟩
    · exact absurd hr (h.command hk).2.1
    · exact absurd hk (hcommand hr)
  | renew hh => exact ⟨⟨h.steps, h.agent, h.command⟩, .refl rfl rfl rfl⟩
  | @save t owner hh =>
    obtain ⟨hmax, hle, items, calls, hst, hw, hpre⟩ := hwrite t owner (.inl rfl) hh
    refine ⟨⟨hmax, fun _ => ⟨items, calls, hst, hw⟩, fun hk => ?_⟩, hle, fun items₀ calls₀ h₀ =>
      ⟨items, calls, hst, hpre items₀ calls₀ h₀⟩⟩
    exact absurd hk (hcommand (DB.held_iff.mp hh).2.2)
  | @setState t owner state result hh =>
    obtain ⟨hmax, hle, items, calls, hst, hw, hpre⟩ := hwrite t owner (.inr ⟨state, result, rfl⟩) hh
    refine ⟨⟨hmax, fun _ => ⟨items, calls, hst, hw⟩, fun hk => ?_⟩, hle, fun items₀ calls₀ h₀ =>
      ⟨items, calls, hst, hpre items₀ calls₀ h₀⟩⟩
    exact absurd hk (hcommand (DB.held_iff.mp hh).2.2)
  | resume hw ht => exact h.resume ht
  | cancel hc =>
    refine ⟨⟨h.steps, h.agent, fun hk => ⟨(h.command hk).1, ?_⟩⟩, .refl rfl rfl rfl⟩
    simp [DB.cancelRow]

/-- A new task is sound. -/
theorem newTask_sound (hd : Does P j ks (.db (.createTask t))) : Sound P tr (newTask now t) := by
  rcases hd.createTask_inv with ⟨hk, -, intro, hst⟩ | ⟨hk, hst, hp⟩
  · exact ⟨Nat.zero_le _, fun _ => ⟨_, _, hst, .opening intro⟩,
      fun hc => absurd (hk.symm.trans hc) (by simp)⟩
  · refine ⟨Nat.zero_le _, fun ha => absurd (hk.symm.trans ha) (by simp), fun _ => ⟨hp, ?_⟩⟩
    simp [newTask, hst]

/-- **What is stored stays sound and grows.** -/
theorem Answered.sound (ha : Answered e) (hk : e.before.db.Keys) (hd : Does P e.job ks e.act.1)
    (hL : Knowledge P e.before.db tr e.job ks) (hks : ∀ x ∈ ks, ∃ e ∈ tr, e.act = x)
    (hG : ∀ id r, e.before.db.taskRow id = some r → Sound P tr r) :
    (∀ id r', e.after.db.taskRow id = some r' → Sound P (e :: tr) r') ∧
      ∀ id r r', e.before.db.taskRow id = some r → e.after.db.taskRow id = some r' →
        Grows r r' := by
  have step : ∀ {id r r'}, e.before.db.taskRow id = some r → e.after.db.taskRow id = some r' →
      Sound P tr r' ∧ Grows r r' := by
    intro id r r' hr hr'
    obtain ⟨r₁, hr₁, hs⟩ := ha.task hk hr
    obtain rfl : r₁ = r' := Option.some.inj (hr₁.symm.trans hr')
    rcases hs with rfl | ⟨q, hq, hs⟩
    · exact ⟨hG id _ hr, .refl rfl rfl rfl⟩
    · rw [hq] at hd
      refine hs.sound (hG id r hr) fun t owner hqt hheld => ?_
      obtain ⟨t₀, items, calls, items', calls', hK, hid, hle, hmax, hst, hpre, hw⟩ :=
        hL.write hd hqt hks
      have hrid : r.id = t.id := (DB.held_iff.mp hheld).1
      have hrow : e.before.db.taskRow t₀.id = some r := by
        rw [← hid, ← hrid, DB.taskRow_id hr]
        exact hr
      obtain ⟨hsteps, items₀, calls₀, hst₀, hpre₀⟩ := hK.behind r hrow (hid ▸ hheld)
      refine ⟨hmax, hsteps.trans hle, items', calls', hst, ?_, fun items₁ calls₁ h₁ => ?_⟩
      · rw [hrid, hid]
        exact hw
      · rw [← (hst₀.unique h₁).1]
        exact hpre₀.trans hpre
  refine ⟨fun id r' hr' => ?_, fun id r r' hr hr' => (step hr hr').2⟩
  cases hr : e.before.db.taskRow id with
  | some r => exact (step hr hr').1.mono
  | none =>
    rcases ha.no_task hr with hn | ⟨t, hq, -, ht⟩
    · rw [hn] at hr'
      cases hr'
    · rw [ht] at hr'
      cases hr'
      rw [hq] at hd
      exact newTask_sound hd

/-- What a worker leased it knows. -/
theorem leased_knows (ha : Answered e) (hk : e.before.db.Keys)
    (hG : ∀ id r, e.before.db.taskRow id = some r → Sound P tr r)
    (hact : e.act = did (.leaseTask owner duration) (.ok t)) :
    ∃ items calls, Knows P e.after.db (e :: tr) owner t items calls := by
  obtain ⟨locked, hs, hok⟩ := ha.ok hact
  obtain ⟨r, hr, hrun, rfl, hr'⟩ := leaseTask_ok hk hok
  have hsound := hG _ r hr
  have hagent : r.kind = .agent := by
    cases hkind : r.kind with
    | agent => rfl
    | command =>
      simp only [DB.runnable, Bool.or_eq_true, Bool.and_eq_true, decide_eq_true_eq] at hrun
      rcases hrun with h | ⟨h, -⟩
      · exact absurd h (hsound.command hkind).2.1
      · exact absurd h (hsound.command hkind).2.2.1
  obtain ⟨items, calls, hst, hw⟩ := hsound.agent hagent
  refine ⟨items, calls, hsound.steps, hst, hw.mono fun _ => Answers.cons, fun r' hrow _ => ?_⟩
  rw [hs] at hrow
  obtain rfl := Option.some.inj (hr'.symm.trans hrow)
  exact ⟨le_rfl, items, calls, hst, List.prefix_rfl⟩

/-- A job's own requests keep its knowledge true. -/
theorem Knowledge.own (hL : Knowledge P e.before.db tr e.job (keys past))
    (hd : Does P e.job (keys past) e.act.1) (ha : Answered e) (hk : e.before.db.Keys)
    (hks : ∀ x ∈ keys past, ∃ e ∈ tr, e.act = x)
    (hG : ∀ id r, e.before.db.taskRow id = some r → Sound P tr r) :
    Knowledge P e.after.db (e :: tr) e.job (keys (e.act :: past)) := by
  obtain ⟨tid, job, ⟨i, a⟩, before, after⟩ := e
  dsimp only at hL hd hG ⊢
  cases job with
  | runTask owner t items calls n =>
    have hlease : ∀ duration, i ≠ .db (.leaseTask owner duration) := by
      rintro duration rfl
      cases hd.leaseTask_inv.1
    by_cases hsave : ∃ t', i = .db (.saveProgress t' owner)
    · -- It saves: from now on it knows what it saved.
      obtain ⟨t', rfl⟩ := hsave
      have hnone : ∀ t₁ r₁, did (.saveProgress t₁ owner) r₁ ∉ keys past := by
        obtain ⟨_, _, _, _, -, ⟨_, _, _, -, h, -⟩ | ⟨_, -, h, -⟩⟩ := hd.saveProgress_inv <;>
          simp [h]
      refine ⟨fun h => absurd (List.mem_cons_self ..) (keys_cons_key rfl a past ▸ h t' a), ?_⟩
      intro t₁ r₁ hmem
      rcases mem_keys_cons hmem with heq | hmem
      · cases heq
        obtain ⟨t₀, items₀, calls₀, items', calls', hK, hid, hle, hmax, hst, hpre, hw⟩ :=
          hL.write hd (.inl rfl) hks
        exact ⟨items', calls', hK.save ha hk rfl hid hle hmax hst hpre hw⟩
      · exact absurd hmem (hnone _ _)
    · have hns : ∀ t', i ≠ .db (.saveProgress t' owner) := fun t' h => hsave ⟨t', h⟩
      refine ⟨fun h => (hL.1 fun t₁ r₁ hm => h t₁ r₁ (keys_subset_cons hm)).other ha hk hlease hns,
        fun t₁ r₁ hmem => ?_⟩
      rcases mem_keys_cons hmem with heq | hmem
      · cases heq
        exact absurd rfl (hns t₁)
      · obtain ⟨items', calls', hK⟩ := hL.2 t₁ r₁ hmem
        exact ⟨items', calls', hK.other ha hk hlease hns⟩
  | taskWorker owner =>
    intro t hmem
    rcases mem_keys_cons hmem with heq | hold
    · exact leased_knows ha hk hG heq.symm
    · obtain ⟨items, calls, hK⟩ := hL t hold
      refine ⟨items, calls, hK.other ha hk ?_ ?_⟩
      · rintro duration rfl
        rw [hd.leaseTask_inv.2.1] at hold
        cases hold
      · rintro t' rfl
        obtain ⟨_, _, _, _, hj, -⟩ := hd.saveProgress_inv
        cases hj
  | _ => trivial

/-- Others' requests keep it true too. -/
theorem Knowledge.other (hL : Knowledge P e.before.db tr j ks) (hd : Does P e.job ks₀ e.act.1)
    (ha : Answered e) (hk : e.before.db.Keys)
    (hw : ∀ o, workerOf j = some o → workerOf e.job ≠ some o) :
    Knowledge P e.after.db (e :: tr) j ks := by
  have hothers : ∀ o, workerOf j = some o → (∀ duration, e.act.1 ≠ .db (.leaseTask o duration)) ∧
      ∀ t', e.act.1 ≠ .db (.saveProgress t' o) := by
    refine fun o ho => ⟨fun duration hq => ?_, fun t' hq => ?_⟩
    · rw [hq] at hd
      exact hw o ho (by rw [hd.leaseTask_inv.1]; rfl)
    · rw [hq] at hd
      obtain ⟨_, _, _, _, hj, -⟩ := hd.saveProgress_inv
      exact hw o ho (by rw [hj]; rfl)
  cases j with
  | runTask owner t items calls n =>
    obtain ⟨hl, hs⟩ := hothers owner rfl
    refine ⟨fun h => (hL.1 h).other ha hk hl hs, fun t₁ r₁ hmem => ?_⟩
    obtain ⟨items', calls', hK⟩ := hL.2 t₁ r₁ hmem
    exact ⟨items', calls', hK.other ha hk hl hs⟩
  | taskWorker owner =>
    intro t hmem
    obtain ⟨hl, hs⟩ := hothers owner rfl
    obtain ⟨items, calls, hK⟩ := hL t hmem
    exact ⟨items, calls, hK.other ha hk hl hs⟩
  | _ => trivial

/-- A job that was handed on to starts with what it was given. -/
theorem Knowledge.next (hL : Knowledge P db tr j ks) (hh : Hands P j ks j') :
    Knowledge P db tr j' [] := by
  have fresh : ∀ {owner t items calls n}, Knows P db tr owner t items calls →
      Knowledge P db tr (.runTask owner t items calls n) [] :=
    fun hK => ⟨fun _ => hK, fun _ _ h => by cases h⟩
  cases hh with
  | worker => exact fun t h => by cases h
  | run hdec =>
    obtain ⟨items', calls', hK⟩ := hL _ (List.mem_singleton_self _)
    rw [hK.stores.decodeState] at hdec
    cases hdec
    exact fresh hK
  | renew | renewAgain => trivial
  | back => exact fun t h => by cases h
  | called =>
    obtain ⟨items', calls', hK⟩ := hL.2 _ _ (List.mem_singleton_self _)
    obtain ⟨rfl, rfl⟩ := hK.stores.unique ⟨rfl, rfl⟩
    exact fresh hK
  | decided hs hc =>
    obtain ⟨items', calls', hK⟩ := hL.2 _ _ (List.mem_cons_self ..)
    obtain ⟨rfl, rfl⟩ := hK.stores.unique ⟨rfl, rfl⟩
    exact fresh hK
  | retry h =>
    refine fresh (hL.1 fun t' r hmem => ?_)
    rcases h with rfl | ⟨e, rfl⟩ <;> simp at hmem
  | maintenance | memory | claim => trivial

/-- **What is stored and what workers know**, in every run: stored tasks are sound and only grow,
and what a worker that holds a lease has in memory is ahead. -/
theorem Reaches.progress (h : Reaches P ok c) :
    ((∀ id r, c.shared.db.taskRow id = some r → Sound P c.trace r) ∧
      ∀ e ∈ c.trace, ∀ id r r', e.before.db.taskRow id = some r →
        e.after.db.taskRow id = some r' → Grows r r') ∧
    ∀ tid th, c.threads tid = some th → Knowledge P c.shared.db c.trace th.job (keys th.past) := by
  refine Reach.joint_inv body_spec h
    (G := fun s tr => (∀ id r, s.db.taskRow id = some r → Sound P tr r) ∧
      ∀ e ∈ tr, ∀ id r r', e.before.db.taskRow id = some r → e.after.db.taskRow id = some r' →
        Grows r r')
    (L := fun s tr _ j past => Knowledge P s.db tr j (keys past)) ?_ ?_ ?_ ?_ ?_ ?_ ?_ ?_
  · exact ⟨fun id r hr => (by cases hr), by simp⟩
  · intro s tr tid j _ hj
    cases j <;> trivial
  · intro s tr p tid j _ hj
    rcases List.mem_append.mp hj with hj | hj
    · obtain ⟨i, -, rfl⟩ := List.mem_map.mp hj
      exact fun t ht => by cases ht
    · rcases List.mem_pair.mp hj with rfl | rfl <;> trivial
  · rintro c tid o th i k r s hr - hf ⟨hG, hgrow⟩ hL
    have hfire := Reaches.fired hr hf
    have hs := hfire.answered.sound hfire.keys hfire.does hL hfire.known hG
    refine ⟨hs.1, fun e he => ?_⟩
    rcases List.mem_cons.mp he with rfl | he
    · exact hs.2
    · exact hgrow e he
  · rintro c tid o th i k r s js hr - hf ⟨hG, -⟩ hL hE tid' j hj
    have hfire := Reaches.fired hr hf
    have hown := hL.own hfire.does hfire.answered hfire.keys hfire.known hG
    exact hown.next (hE.hands j hj)
  · rintro c tid o th i k r s hr - hf ⟨hG, -⟩ hL
    have hfire := Reaches.fired hr hf
    exact hL.own hfire.does hfire.answered hfire.keys hfire.known hG
  · rintro c tid o th i k r s tid' th' hr - hf - - hne hth' hL
    have hfire := Reaches.fired hr hf
    refine hL.other hfire.does hfire.answered hfire.keys fun w hw hw' => ?_
    exact hne ((Reaches.workers hr).unique _ _ _ _ w hth' hf.thread hw hw')
  · rintro c v s - hv hG
    have hdb : s.db = c.shared.db := World.step_db hv
    rw [hdb]
    exact ⟨hG, fun tid j past hL => hL⟩

end Jarvis.Orchestrator
