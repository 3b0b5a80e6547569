import Jarvis.Interleave.Track
import Jarvis.Orchestrator.Pauses
import Jarvis.Trace

/-!
# Questions nobody answers

A task that waits for a confirmation is resumed when the confirmation has expired, with a result
that says so. Its deadline was fixed when it started, and the time it waited counts: the worker that
takes it up again may find it too late before it has asked the model.
-/

namespace Jarvis.Orchestrator

open Interleave Engine Trace

variable {P : Params} {c : Cfg} {T : UUID} {e : Ev} {tr : List Ev}

/-- What a task is told when its confirmation has expired. Source: `memory.go` `maintenance` -/
def notConfirmed (P : Params) : String :=
  output P [("error", "The user did not confirm in time; the action was not done.")]

/-- The result that `maintenance` resumes the task with. -/
def answersExpired (P : Params) (T : UUID) (e : Ev) : Option Item :=
  match e.job, e.act.1 with
  | .maintenance _, .db (.resumeTask T' (.complete callID out)) =>
    if T' = T ∧ out = notConfirmed P ∧ (e.before.db.taskRow T).any DB.waiting = true ∧
        (e.after.db.taskRow T).any (fun r => r.state = .queued) = true then
      some (toolResult callID out)
    else none
  | _, _ => none

/-- The items the model is asked with for the task. -/
def askedWith (T : UUID) (e : Ev) : List Item :=
  match e.act.1 with
  | .decide T' _ items _ => if T' = T then items else []
  | _ => []

/-- The results that the task was resumed with, and that the model has not been asked with. -/
def unheard (P : Params) (T : UUID) : List Ev → List Item
  | [] => []
  | e :: tr => (answersExpired P T e).toList ++ (unheard P T tr).filter fun x => x ∉ askedWith T e

/-- The event ends the task. -/
def taskEnds (T : UUID) (e : Ev) : Bool :=
  (e.before.db.taskRow T).any (fun r => !r.state.terminal) &&
    (e.after.db.taskRow T).any fun r => r.state.terminal

/-- The user cancels the task. -/
def cancels (T : UUID) (e : Ev) : Bool :=
  match e.act.1 with
  | .db (.cancelTask _ _ T') => T' = T
  | _ => false

/-- The round has a task with no steps left and no pending calls. -/
def outOfSteps (P : Params) (T : UUID) (e : Ev) : Bool :=
  match e.job with
  | .runTask _ t _ [] _ => t.id = T && P.opts.taskMaxSteps ≤ t.steps
  | _ => false

/-- There is no key of the provider. -/
def noKey (e : Ev) : Bool :=
  match e.act with
  | ⟨.providerKey .., answer⟩ => answer ≠ KeyAnswer.key
  | _ => false

/-- The reasons for which a task may end at any time: it is cancelled, it has no steps left, or this
round got no key of the provider. -/
def excused (P : Params) (T : UUID) (past : List Ev) (e : Ev) : Bool :=
  cancels T e || outOfSteps P T e || past.any fun e' => e'.tid = e.tid && noKey e'

/-! ### Results that were not heard -/

theorem answersExpired_inv (h : answersExpired P T e = some x) :
    ∃ last callID r r', e.job = .maintenance last ∧ x = toolResult callID (notConfirmed P) ∧
      e.act.1 = .db (.resumeTask T (.complete callID (notConfirmed P))) ∧
      e.before.db.taskRow T = some r ∧ DB.waiting r = true ∧ e.after.db.taskRow T = some r' ∧
      r'.state = .queued := by
  unfold answersExpired at h
  split at h
  · rename_i last T' callID out hjob hact
    split_ifs at h with hcond
    obtain ⟨rfl, rfl, hbefore, hafter⟩ := hcond
    obtain ⟨r, hr, hw⟩ := (Option.any_eq_true ..).mp hbefore
    obtain ⟨r', hr', hq⟩ := (Option.any_eq_true ..).mp hafter
    exact ⟨last, callID, r, r', hjob, (Option.some.inj h).symm, hact, hr, hw, hr',
      of_decide_eq_true hq⟩
  · cases h

variable {provider : Provider} {items : List Item} {tools : Tools} {α : Type} {x : Course}
  {w : Owner} {r : TaskRow} {calls : List ToolCall} {s : Shared}

theorem askedWith_of_decide (h : e.act.1 = .decide T provider items tools) :
    askedWith T e = items := by
  simp only [askedWith, h, if_true]

theorem mem_unheard_cons {x : Item} : x ∈ unheard P T (e :: tr) ↔
    answersExpired P T e = some x ∨ x ∈ unheard P T tr ∧ x ∉ askedWith T e := by
  simp [unheard]

/-- A result is unheard until the model is asked with it. -/
theorem mem_unheard {x : Item} : x ∈ unheard P T tr ↔ ∃ mid e past, tr = mid ++ e :: past ∧
    answersExpired P T e = some x ∧ ∀ a ∈ mid, x ∉ askedWith T a := by
  induction tr with
  | nil => simp [unheard]
  | cons e₀ tr ih =>
    rw [mem_unheard_cons, ih]
    constructor
    · rintro (hnew | ⟨⟨mid, e, past, rfl, hx, hmid⟩, hnot⟩)
      · exact ⟨[], e₀, tr, rfl, hnew, fun _ ha => absurd ha List.not_mem_nil⟩
      · exact ⟨e₀ :: mid, e, past, rfl, hx, List.forall_mem_cons.mpr ⟨hnot, hmid⟩⟩
    · rintro ⟨mid, e, past, heq, hx, hmid⟩
      cases mid with
      | nil =>
        cases heq
        exact .inl hx
      | cons a mid =>
        cases heq
        obtain ⟨hnot, hmid⟩ := List.forall_mem_cons.mp hmid
        exact .inr ⟨⟨mid, e, past, rfl, hx, hmid⟩, hnot⟩

/-! ### Why a round ends a task -/

/-- A job on its way. -/
structure Course where
  job : Job
  /-- It has asked the model, or found the task too late. -/
  cleared : Bool := false
  /-- It got no key of the provider. -/
  refused : Bool := false

/-- The task of the job is too late. -/
def Job.late (time : Time) : Job → Bool
  | .runTask _ t .. => t.deadline < time
  | _ => false

/-- A job goes on. -/
def Course.after (x : Course) : (Σ i, Answer i) → Course
  | ⟨.now, time⟩ => { x with cleared := x.cleared || x.job.late time }
  | ⟨.providerKey .., answer⟩ => { x with refused := x.refused || answer ≠ .key }
  | ⟨.decide .., _⟩ => { x with cleared := true }
  | _ => x

/-- How far a thread is. -/
def courses : Tracker Instr Answer Job Course := ⟨fun job => { job }, Course.after⟩

/-- The request ends a task for its worker. -/
def Instr.finishes : Instr → Bool
  | .db (.setTaskState _ _ state _) => state.terminal
  | _ => false

/-- Why a round may end its task. -/
def MayFinish (P : Params) (x : Course) (i : Instr) : Prop :=
  i.finishes = true → ∀ w t items calls n, x.job = .runTask w t items calls n →
    x.cleared = true ∨ x.refused = true ∨ calls = [] ∧ P.opts.taskMaxSteps ≤ t.steps

abbrev FinishesFor (P : Params) {α : Type} (x : Course) (p : Op α) : Prop :=
  Follows courses.after (MayFinish P) (fun _ _ => True) x p

/-- A program that ends no task. -/
abbrev Unfinishing {α : Type} (p : Op α) : Prop := p.Only fun i => i.finishes = false

theorem Unfinishing.ask (h : i.finishes = false) : Unfinishing (ask i) := .call h

theorem Unfinishing.query (h : (Instr.db q).finishes = false) : Unfinishing (query q) := .call h

theorem unfinishing_execute (c : Caller) (target : Target) (args : String) :
    Unfinishing (execute P c target args) := by
  unfold execute dispatch callMCP runDevice execDevice auditCommand remember recallMemory audit
  repeat' with_reducible first
    | exact .pure _ | refine Unfinishing.query ?_ | refine Unfinishing.ask ?_
    | refine .bind ?_ fun _ => ?_ | split
  all_goals rfl

theorem unfinishing_pauseTask (owner : Owner) (t : Task) (items : List Item) (call : ToolCall)
    (calls : List ToolCall) (p : Pause) : Unfinishing (pauseTask P owner t items call calls p) := by
  cases p <;> unfold pauseTask expireWithoutConversation saveApproval approvalExpiry emit notify
    audit onlyIf
  all_goals
    repeat' with_reducible first
      | exact .pure _ | refine Unfinishing.query ?_ | refine Unfinishing.ask ?_
      | refine .bind ?_ fun _ => ?_ | split
    all_goals rfl

theorem Unfinishing.follows (h : Unfinishing p) : FinishesFor P x p := by
  induction p generalizing x with
  | ret a => trivial
  | act i k ih => exact ⟨fun hi => absurd (h.1.symm.trans hi) nofun, fun r => ih r (h.2 r)⟩

/-- A job that is no round may do anything. -/
theorem finishes_other (hx : ∀ w t items calls n, x.job ≠ .runTask w t items calls n) (p : Op α) :
    FinishesFor P x p := by
  have hsame (x : Course) (e : Σ i, Answer i) : (x.after e).job = x.job := by
    unfold Course.after
    split <;> rfl
  induction p generalizing x with
  | ret a => trivial
  | act i k ih =>
    refine ⟨fun _ w t items calls n hj => absurd hj (hx w t items calls n), fun r =>
      ih r fun w t items calls n => ?_⟩
    rw [show courses.after x ⟨i, r⟩ = x.after ⟨i, r⟩ from rfl, hsame]
    exact hx w t items calls n

theorem finishes_finish (owner : Owner) (t : Task) (items : List Item) (calls : List ToolCall)
    (state : TaskState) (result : String)
    (hx : ∀ w t items calls n, x.job = .runTask w t items calls n →
      x.cleared = true ∨ x.refused = true ∨ calls = [] ∧ P.opts.taskMaxSteps ≤ t.steps) :
    FinishesFor P x (finish P owner t items calls state result) := by
  have hfinished (t : Task) : Unfinishing (finished P t) := by
    unfold finished auditFinished audit emit notify onlyIf
    repeat' with_reducible first
      | exact .pure _ | refine Unfinishing.query ?_ | refine Unfinishing.ask ?_
      | refine .bind ?_ fun _ => ?_ | split
    all_goals rfl
  unfold finish
  have hset : FinishesFor P x (query (.setTaskState { withState t items calls with
      state, result := truncate (trimSpace result) maxResultForUser } owner state
      (truncate (trimSpace result) maxResultForUser))) := .call (fun _ => hx) fun _ => trivial
  refine .bind hset fun _ r _ => Unfinishing.follows ?_
  split
  · exact hfinished _
  · exact .pure _

/-- Whatever becomes of asking the model, it was asked or there is no key. -/
theorem follows_decide (t : Task) (items : List Item) :
    Follows courses.after (MayFinish P) (fun x _ => x.cleared = true ∨ x.refused = true) x
    (Engine.decide t items) := by
  have hkey : Follows courses.after (MayFinish P)
    (fun x answer => answer ≠ KeyAnswer.key → x.refused = true) x
      (ask (.providerKey t.tenantID t.provider)) := by
    refine .call nofun fun answer hanswer => ?_
    simp [courses, Course.after, hanswer]
  have hask (x : Course) : Follows courses.after (MayFinish P) (fun x _ => x.cleared = true) x
      (ask (.decide t.id t.provider items t.tools)) := .call nofun fun _ => rfl
  unfold Engine.decide
  refine .bind hkey fun x answer hx => ?_
  split
  · exact .pure (.inr (hx nofun))
  · exact .pure (.inr (hx nofun))
  · refine .bind (hask x) fun x r hx => ?_
    split <;> exact .pure (.inl hx)

theorem finishes_runTask (owner : Owner) (t : Task) (items : List Item)
    (calls : List ToolCall) (n : ℕ) :
    FinishesFor P (courses.start (.runTask owner t items calls n))
    (runTask P owner t items calls n) := by
  have hsave (t : Task) (items : List Item) (calls : List ToolCall) :
    Unfinishing (save owner t items calls) :=
    .bind (Unfinishing.query rfl) fun _ => .pure _
  have hstop {x : Course} {p : Op Unit} (h : FinishesFor P x p) :
    FinishesFor P x (p >>= fun _ => pure Next.stop) :=
    .bind h fun _ _ _ => .pure trivial
  have hstopped : Follows courses.after (MayFinish P)
    (fun x _ => x = courses.start (.runTask owner t items calls n))
      (courses.start (.runTask owner t items calls n)) (ask .ctxErr) := .call nofun fun _ => rfl
  have hclock : Follows courses.after (MayFinish P)
      (fun x time => x.job = .runTask owner t items calls n ∧
        (t.deadline < time → x.cleared = true))
      (courses.start (.runTask owner t items calls n)) (ask .now) := by
    refine .call nofun fun time => ⟨rfl, fun hlate => ?_⟩
    simp [courses, Course.after, Job.late, hlate]
  unfold runTask
  refine .bind hstopped fun x stopped hx => ?_
  subst hx
  by_cases hdone : stopped = true
  · rw [if_pos hdone]
    exact .pure trivial
  rw [if_neg hdone]
  refine .bind hclock fun x time hx => ?_
  obtain ⟨hjob, hlate⟩ := hx
  by_cases htime : t.deadline < time
  · rw [if_pos htime]
    exact hstop (finishes_finish _ _ _ _ _ _ fun _ _ _ _ _ _ => .inl (hlate htime))
  rw [if_neg htime]
  split
  · -- A round with a pending call ends no task.
    have htool : Unfinishing (runTool P t ‹_›) := by
      unfold runTool
      split
      · exact unfinishing_execute ..
      · exact .pure _
    refine Unfinishing.follows (.bind htool fun r => ?_)
    split
    · exact .bind (unfinishing_pauseTask ..) fun _ => .pure _
    · exact .bind (hsave ..) fun _ => .pure _
  by_cases hsteps : P.opts.taskMaxSteps ≤ t.steps
  · rw [if_pos hsteps]
    refine hstop (finishes_finish _ _ _ _ _ _ fun w t' items' calls' n' hj => .inr (.inr ?_))
    rw [hjob] at hj
    cases hj
    exact ⟨rfl, hsteps⟩
  rw [if_neg hsteps]
  refine .bind (follows_decide t items) fun x r hx => ?_
  have hend {x : Course} (hx : x.cleared = true ∨ x.refused = true) (t : Task) (items : List Item)
      (state : TaskState) (result : String) :
      FinishesFor P x (finish P owner t items [] state result >>= fun _ => pure Next.stop) :=
    hstop (finishes_finish _ _ _ _ _ _ fun _ _ _ _ _ _ => hx.imp_right .inl)
  have hctx : Follows courses.after (MayFinish P)
    (fun x _ => x.cleared = true ∨ x.refused = true) x (ask .ctxErr) :=
    .call nofun fun _ => hx
  split
  · refine .bind hctx fun x stopped hx => ?_
    split
    · exact .pure trivial
    split
    · exact hend hx ..
    split
    · exact hend hx ..
    · refine Unfinishing.follows (.bind (Unfinishing.ask rfl) fun stopped => ?_)
      split <;> exact .pure _
  · split
    · exact hend hx ..
    · exact Unfinishing.follows (.bind (hsave ..) fun _ => .pure _)

theorem finishes_body (j : Job) : FinishesFor P (courses.start j) (body P j) := by
  cases j
  case runTask owner t items calls n =>
    refine .bind (finishes_runTask owner t items calls n) fun _ next _ => ?_
    cases next <;> exact .pure trivial
  all_goals
    refine finishes_other (fun _ _ _ _ _ hj => ?_) _
    cases hj

/-! ### The condition -/

/-- The condition on steps: a worker that holds a task which the model has not heard from since it
was resumed does not find it too late. -/
def takenUpInTime (P : Params) (c : Cfg) : Lbl → Bool
  | .exec tid (.time time) =>
    (c.threads tid).all fun th => match th.job, th.prog with
      | .runTask w t .., .act .now _ =>
        time ≤ t.deadline || unheard P t.id c.trace = [] ||
          !(c.shared.db.taskRow t.id).any (DB.held t.id w)
      | _, _ => true
  | _ => true

/-! ### What every run keeps -/

/-- The worker that holds a task holds it before, unless it has just leased it. -/
theorem Answered.held_before (h : Answered e) (hk : e.before.db.Keys)
    (hl : ∀ duration, e.act.1 ≠ .db (.leaseTask w duration)) (hr' : e.after.db.taskRow T = some r')
    (hh : DB.held T w r' = true) : ∃ r, e.before.db.taskRow T = some r ∧ DB.held T w r = true := by
  obtain ⟨hid, howner, hrun⟩ := DB.held_iff.mp hh
  cases hr : e.before.db.taskRow T with
  | none =>
    rcases h.no_task hr with hn | ⟨t, -, -, ht⟩
    · rw [hn] at hr'
      cases hr'
    · rw [ht] at hr'
      cases hr'
      cases howner
  | some r =>
    refine ⟨r, rfl, ?_⟩
    obtain ⟨r₁, hr₁, hs⟩ := h.task hk hr
    obtain rfl : r₁ = r' := Option.some.inj (hr₁.symm.trans hr')
    rcases hs with rfl | ⟨q, hq, hs⟩
    · exact hh
    cases hs with
    | same => exact hh
    | lease h =>
      cases howner
      exact absurd hq (hl _)
    | renew h => exact DB.held_iff.mpr ⟨hid, howner, hrun⟩
    | save h => exact DB.held_iff.mpr ⟨hid, howner, (DB.held_iff.mp h).2.2⟩
    | setState h => cases howner
    | resume hw ht =>
      rcases Resume.apply_state ht with hst | hst | hst <;> exact absurd (hst.symm.trans hrun)
        (by simp)
    | cancel h => cases hrun

theorem Course.job_after (x : Course) (a : Σ i, Answer i) : (x.after a).job = x.job := by
  unfold Course.after
  split <;> rfl

theorem Course.cleared_after (h : (x.after a).cleared = true) :
    x.cleared = true ∨ (∃ time, a = ⟨.now, time⟩ ∧ x.job.late time = true) ∨
      ∃ T provider items tools, a.1 = .decide T provider items tools := by
  unfold Course.after at h
  split at h
  · rename_i time
    exact (Bool.or_eq_true_iff.mp h).imp_right fun hlate => .inl ⟨time, rfl, hlate⟩
  · exact .inl h
  · exact .inr (.inr ⟨_, _, _, _, rfl⟩)
  · exact .inl h

theorem Course.refused_after (h : (x.after e.act).refused = true) :
    x.refused = true ∨ noKey e = true := by
  unfold Course.after at h
  split at h
  · exact .inl h
  · rename_i tenant provider answer hact
    refine (Bool.or_eq_true_iff.mp h).imp_right fun hkey => ?_
    simp only [noKey, hact]
    exact hkey
  · exact .inl h
  · exact .inl h

theorem Does.decide_inv (h : Does P j ks (.decide T provider items tools)) :
    ∃ w t n, j = .runTask w t items [] n ∧ ks = [] ∧ t.id = T := by
  cases h with
  | free h => cases h
  | decide => exact ⟨_, _, _, rfl, rfl, rfl⟩

/-- A held task is not resumed. -/
theorem unheard_cons_of_held (hr : e.before.db.taskRow T = some r) (hh : DB.held T w r = true)
    (h : unheard P T tr = []) : unheard P T (e :: tr) = [] := by
  refine List.eq_nil_iff_forall_not_mem.mpr fun x hx => ?_
  rcases mem_unheard_cons.mp hx with hnew | ⟨hold, -⟩
  · obtain ⟨_, _, r', _, -, -, -, hr', hw, -⟩ := answersExpired_inv hnew
    cases hr.symm.trans hr'
    simp [DB.waiting, (DB.held_iff.mp hh).2.2] at hw
  · rw [h] at hold
    cases hold

/-- What every run keeps. -/
structure Heard (P : Params) (s : Shared) (tr : List Ev) (f : ℕ → Option Course) : Prop where
  /-- What the model has not heard is stored. -/
  stored : ∀ T x, x ∈ unheard P T tr →
    ∃ r items calls, s.db.taskRow T = some r ∧ Stores r.toTask items calls ∧ x ∈ items
  /-- A worker that has asked, or was late, has nothing to ask. -/
  cleared : ∀ tid x w t items calls n, f tid = some x → x.job = .runTask w t items calls n →
    x.cleared = true →
    ∀ r, s.db.taskRow t.id = some r → DB.held t.id w r = true → unheard P t.id tr = []
  refused : ∀ tid x, f tid = some x → x.refused = true → ∃ e ∈ tr, e.tid = tid ∧ noKey e = true
  ends : Each (fun past e => ∀ T, unheard P T past ≠ [] → taskEnds T e = true →
    excused P T past e = true) tr

theorem Sound.agent_of_stores (h : Sound P tr r) (hst : Stores r.toTask items calls) :
    r.kind = .agent := by
  cases hk : r.kind with
  | agent => rfl
  | command =>
    have hnone := (h.command hk).1
    rw [show r.pending = _ from hst.2] at hnone
    simp at hnone

/-- A waiting task of an agent is resumed to be queued. -/
theorem resumed_queued {u : Resume} {r t : Task} (hk : r.kind = .agent) (hst : Stores r items calls)
    (h : u.apply r = some t) : t.state = .queued := by
  have hcomplete {callID out : String} (hc : completePending r callID out = some t) :
    t.state = .queued := by
    obtain ⟨_, _, -, -, rfl⟩ := completePending_eq hst hc
    rfl
  have hcommand : r.kind ≠ .command := by rw [hk]; nofun
  cases u with
  | complete callID out => exact hcomplete h
  | approved a out =>
    rw [Resume.apply, if_neg hcommand] at h
    exact hcomplete h
  | dropped a why out =>
    rw [Resume.apply, if_neg hcommand] at h
    exact hcomplete h

/-- A task is resumed with a result that it stores. -/
theorem stored_resumed (ha : Answered e) (hk : e.before.db.Keys)
    (hsound : ∀ id r, e.before.db.taskRow id = some r → Sound P tr r) {x : Item}
    (h : answersExpired P T e = some x) :
    ∃ r items calls, e.after.db.taskRow T = some r ∧ Stores r.toTask items calls ∧ x ∈ items := by
  obtain ⟨_, callID, r, r', -, rfl, hact, hr, hw, hr', hqueued⟩ := answersExpired_inv h
  have hrow := hsound T r hr
  obtain ⟨r₁, hr₁, hs⟩ := ha.task hk hr
  obtain rfl : r₁ = r' := Option.some.inj (hr₁.symm.trans hr')
  have hsame : r₁ ≠ r := by
    rintro rfl
    simp [DB.waiting, hqueued] at hw
  rcases hs with rfl | ⟨q, hq, hs⟩
  · exact absurd rfl hsame
  rw [hact] at hq
  cases hq
  cases hs with
  | same => exact absurd rfl hsame
  | resume _ ht =>
    obtain ⟨items, calls, hst, -⟩ := hrow.agent (hrow.agent_of_complete ht)
    obtain ⟨call, rest, -, -, rfl⟩ := completePending_eq hst ht
    exact ⟨_, _, rest, hr₁, ⟨rfl, rfl⟩, List.mem_append_right _ List.mem_cons_self⟩

theorem courses_job (j : Job) (past : Log) : (courses.of j past).job = j := by
  induction past with
  | nil => rfl
  | cons a past ih => exact (Course.job_after _ _).trans ih

section Fire

variable {ok : Cfg → Lbl → Prop} {tid : ℕ} {o : Oracle}
  {th : Thread Instr Answer Job} {i : Instr} {k : Answer i → Op (List Job)} {r : Answer i}

theorem Heard.stored_fire (h : Heard P c.shared c.trace (c.tracks courses))
    (hreach : Reaches P ok c) (hf : Fires (machine P) c tid o th i k r s) {x : Item}
    (hx : x ∈ unheard P T (⟨tid, th.job, ⟨i, r⟩, c.shared, s⟩ :: c.trace)) :
    ∃ r items calls, s.db.taskRow T = some r ∧ Stores r.toTask items calls ∧ x ∈ items := by
  obtain ⟨⟨hsound, -⟩, hknows⟩ := hreach.progress
  have hfire := hreach.fired hf
  have hgrows :=
    (hfire.answered.sound hfire.keys hfire.does (hknows tid th hf.thread) hfire.known hsound).2
  rcases mem_unheard_cons.mp hx with hnew | ⟨hold, -⟩
  · exact stored_resumed hfire.answered hfire.keys hsound hnew
  · obtain ⟨row, items, calls, hrow, hst, hmem⟩ := h.stored T x hold
    obtain ⟨row', hrow', -⟩ := hfire.answered.task hfire.keys hrow
    obtain ⟨items', calls', hst', hpre⟩ := (hgrows T row row' hrow hrow').2 items calls hst
    exact ⟨row', items', calls', hrow', hst', hpre.subset hmem⟩

variable {t : Task} {n : ℕ} {row : TaskRow}

/-- A worker that asks the model for a task it holds asks with all that the model has not heard. -/
theorem Heard.asked (h : Heard P c.shared c.trace (c.tracks courses)) (hreach : Reaches P ok c)
    (hf : Fires (machine P) c tid o th i k r s) (hi : i = .decide T provider items tools)
    (hjob : th.job = .runTask w t items' calls n) (hrow : c.shared.db.taskRow t.id = some row)
    (hheld : DB.held t.id w row = true) : t.id = T ∧ ∀ x ∈ unheard P t.id c.trace, x ∈ items := by
  have hfire := hreach.fired hf
  have hdoes : Does P th.job (keys th.past) i := hfire.does
  rw [hi] at hdoes
  obtain ⟨w', t', n', hj, hks, hT⟩ := hdoes.decide_inv
  cases hj.symm.trans hjob
  have hknow : Knowledge P c.shared.db c.trace th.job (keys th.past) :=
    hreach.progress.2 tid th hf.thread
  rw [hjob, hks] at hknow
  have hknows := hknow.1 fun t' r' hmem => by cases hmem
  obtain ⟨-, items₀, calls₀, hst₀, hpre⟩ := hknows.behind row hrow hheld
  refine ⟨hT, fun x hx => hpre.subset ?_⟩
  obtain ⟨row₁, items₁, calls₁, hrow₁, hst₁, hmem⟩ := h.stored t.id x hx
  cases hrow.symm.trans hrow₁
  rw [(hst₀.unique hst₁).1]
  exact hmem

theorem unheard_nil_of_late (hok : takenUpInTime P c (.exec tid o) = true)
    (hf : Fires (machine P) c tid o th i k r s) (hi : (⟨i, r⟩ : Σ i, Answer i) = ⟨.now, time⟩)
    (hjob : th.job = .runTask w t items calls n) (hlate : t.deadline < time)
    (hrow : c.shared.db.taskRow t.id = some row) (hheld : DB.held t.id w row = true) :
    unheard P t.id c.trace = [] := by
  cases hi
  have hanswer : answer c.shared .now o = some (time, s) := hf.answer
  cases o <;> cases hanswer
  have hany : (c.shared.db.taskRow t.id).any (DB.held t.id w) = true := by rw [hrow]; exact hheld
  simp only [takenUpInTime, hf.thread, Option.all_some, hjob, hf.prog, hany, Bool.not_true,
    Bool.or_false, Bool.or_eq_true, decide_eq_true_eq] at hok
  exact hok.resolve_left (not_le.mpr hlate)

section

variable (h : Heard P c.shared c.trace (c.tracks courses)) (hreach : Reaches P ok c)
include h hreach

/-- What a worker has cleared stays cleared while it holds the task. -/
theorem Heard.cleared_fire (hok : takenUpInTime P c (.exec tid o) = true)
    (hf : Fires (machine P) c tid o th i k r s) {tid' : ℕ} {x : Course}
    (hx : Function.update (c.tracks courses) tid
      (some (courses.after (courses.of th.job th.past) ⟨i, r⟩)) tid' = some x)
    (hjob : x.job = .runTask w t items calls n) (hcleared : x.cleared = true) {row' : TaskRow}
    (hrow' : s.db.taskRow t.id = some row') (hheld' : DB.held t.id w row' = true) :
    unheard P t.id (⟨tid, th.job, ⟨i, r⟩, c.shared, s⟩ :: c.trace) = [] := by
  have hfire := hreach.fired hf
  -- The thread is this worker, so no other thread leases for it.
  have hthread : ∃ th', c.threads tid' = some th' ∧ th'.job = x.job := by
    rcases of_update hx with ⟨rfl, hown⟩ | ⟨-, hx⟩
    · refine ⟨th, hf.thread, ?_⟩
      rw [← Option.some.inj hown]
      exact ((Course.job_after _ _).trans (courses_job _ _)).symm
    · obtain ⟨th', hth', hx'⟩ := Option.map_eq_some_iff.mp hx
      exact ⟨th', hth', by rw [← hx', courses_job]⟩
  obtain ⟨th', hth', hjob'⟩ := hthread
  rw [hjob] at hjob'
  have hnolease : ∀ duration, i ≠ .db (.leaseTask w duration) := by
    rintro duration rfl
    have hworker : th.job = .taskWorker w := (hreach.does hf).leaseTask_inv.1
    have htid : tid' = tid := hreach.workers.unique tid' tid th' th w hth' hf.thread
      (hjob' ▸ rfl) (hworker ▸ rfl)
    rw [htid, hf.thread] at hth'
    rw [← Option.some.inj hth', hworker] at hjob'
    cases hjob'
  obtain ⟨row, hrow, hheld⟩ := hfire.answered.held_before hfire.keys hnolease hrow' hheld'
  rcases of_update hx with ⟨rfl, hafter⟩ | ⟨-, hx⟩
  · rw [hf.thread] at hth'
    cases hth'
    have hafter : (courses.of th.job th.past).after ⟨i, r⟩ = x := Option.some.inj hafter
    rw [← hafter] at hcleared
    have hown : c.tracks courses tid' = some (courses.of th.job th.past) :=
      Config.tracks_thread hf.thread
    rcases Course.cleared_after hcleared with hbefore | ⟨time, hi, hlate⟩ |
      ⟨T, provider, asked, tools, hi⟩
    · refine unheard_cons_of_held hrow hheld ?_
      exact h.cleared tid' _ w t items calls n hown
        ((courses_job _ _).trans hjob') hbefore row hrow hheld
    · rw [courses_job, hjob'] at hlate
      exact unheard_cons_of_held hrow hheld
        (unheard_nil_of_late hok hf hi hjob' (of_decide_eq_true hlate) hrow hheld)
    · obtain ⟨rfl, hall⟩ := h.asked hreach hf hi hjob' hrow hheld
      refine List.eq_nil_iff_forall_not_mem.mpr fun y hy => ?_
      rcases mem_unheard_cons.mp hy with hnew | ⟨hold, hnot⟩
      · obtain ⟨_, _, _, _, hm, -⟩ := answersExpired_inv hnew
        cases hjob'.symm.trans hm
      · refine hnot ?_
        rw [askedWith_of_decide hi]
        exact hall y hold
  · exact unheard_cons_of_held hrow hheld
      (h.cleared tid' x w t items calls n hx hjob hcleared row hrow hheld)

/-- A worker ends no task that the model has not heard from, unless it has no steps left or there is
no key. -/
theorem Heard.ends_fire (hf : Fires (machine P) c tid o th i k r s)
    (hmay : MayFinish P (courses.of th.job th.past) i) (hunheard : unheard P T c.trace ≠ [])
    (hends : taskEnds T ⟨tid, th.job, ⟨i, r⟩, c.shared, s⟩ = true) :
    excused P T c.trace ⟨tid, th.job, ⟨i, r⟩, c.shared, s⟩ = true := by
  obtain ⟨hbefore, hafter⟩ := Bool.and_eq_true_iff.mp hends
  obtain ⟨row, hrow, hlive⟩ := (Option.any_eq_true ..).mp hbefore
  obtain ⟨row', hrow', hdead⟩ := (Option.any_eq_true ..).mp hafter
  have hlive : row.state.terminal = false := Bool.not_eq_true' _ |>.mp hlive
  obtain ⟨⟨hsound, -⟩, hknows⟩ := hreach.progress
  have hfire := hreach.fired hf
  have hown : c.tracks courses tid = some (courses.of th.job th.past) :=
    Config.tracks_thread hf.thread
  have hid : row.id = T := DB.taskRow_id hrow
  obtain ⟨row₁, hrow₁, hs⟩ := hfire.answered.task hfire.keys hrow
  obtain rfl : row₁ = row' := Option.some.inj (hrow₁.symm.trans hrow')
  have hchanged : row₁.state ≠ row.state := by
    intro heq
    rw [heq, hlive] at hdead
    cases hdead
  rcases hs with rfl | ⟨q, hq, hs⟩
  · exact absurd rfl hchanged
  have hdoes : Does P th.job (keys th.past) i := hfire.does
  have hq : i = .db q := hq
  cases hs with
  | same => exact absurd rfl hchanged
  | lease hrun => cases hdead
  | renew | save => exact absurd rfl hchanged
  | @setState t' w state result hheld =>
    rw [hq] at hdoes
    have hfinishes : i.finishes = true := by rw [hq]; exact hdead
    have hknow : Knowledge P c.shared.db c.trace th.job (keys th.past) := hknows tid th hf.thread
    rcases hdoes.setTaskState_inv with ⟨t, hjob, hks, hnone, -⟩ | ⟨t, items, calls, n, hjob, hcase⟩
    · -- What was leased can be read.
      rw [hjob, hks] at hknow
      obtain ⟨items, calls, hleased⟩ := hknow t (List.mem_singleton_self _)
      rw [hleased.stores.decodeState] at hnone
      cases hnone
    · have ht : t'.id = t.id := by
        rcases hcase with ⟨-, rfl, -⟩ | ⟨_, -, -, -, -, -, rfl⟩ | ⟨_, _, -, -, -, -, rfl⟩ <;> rfl
      have hT : t.id = T := by rw [← ht, ← (DB.held_iff.mp hheld).1, hid]
      rw [ht] at hheld
      have hjobx := (courses_job th.job th.past).trans hjob
      rcases hmay hfinishes w t items calls n hjobx with hcl | href | ⟨rfl, hsteps⟩
      · have hnil := h.cleared tid _ w t items calls n hown hjobx hcl row (hT ▸ hrow) hheld
        exact absurd (hT ▸ hnil) hunheard
      · obtain ⟨e, he, htid, hkey⟩ := h.refused tid _ hown href
        have hany : (c.trace.any fun e' => e'.tid = tid && noKey e') = true :=
          List.any_eq_true.mpr ⟨e, he, Bool.and_eq_true_iff.mpr ⟨decide_eq_true htid, hkey⟩⟩
        rw [excused, hany, Bool.or_true]
      · have hout : outOfSteps P T ⟨tid, th.job, ⟨i, r⟩, c.shared, s⟩ = true := by
          simp [outOfSteps, hjob, hT, hsteps]
        rw [excused, hout, Bool.or_true, Bool.true_or]
  | @resume u t hw ht =>
    -- An agent's task is resumed to be queued; a command's task has no calls.
    obtain ⟨x, hx⟩ := List.exists_mem_of_ne_nil _ hunheard
    obtain ⟨row₂, items, calls, hrow₂, hst, -⟩ := h.stored T x hx
    cases hrow.symm.trans hrow₂
    have hqueued : t.state = .queued := resumed_queued
      ((hsound T row hrow).agent_of_stores hst) hst ht
    rw [show (DB.resumed t c.shared.now row).state = t.state from rfl, hqueued] at hdead
    cases hdead
  | cancel hc =>
    have hcancels : cancels T ⟨tid, th.job, ⟨i, r⟩, c.shared, s⟩ = true := by
      simp only [cancels, hq, hid, decide_true]
    rw [excused, hcancels, Bool.true_or, Bool.true_or]

theorem Heard.fire (hok : takenUpInTime P c (.exec tid o) = true)
    (hf : Fires (machine P) c tid o th i k r s) (hmay : MayFinish P (courses.of th.job th.past) i) :
    Heard P s (⟨tid, th.job, ⟨i, r⟩, c.shared, s⟩ :: c.trace)
      (Function.update (c.tracks courses) tid
        (some (courses.after (courses.of th.job th.past) ⟨i, r⟩))) where
  stored T x hx := h.stored_fire hreach hf hx
  cleared tid' x w t items calls n hx hjob hcleared row hrow hheld :=
    h.cleared_fire hreach hok hf hx hjob hcleared hrow hheld
  refused tid' x hx hrefused := by
    rcases of_update hx with ⟨rfl, hafter⟩ | ⟨-, hx⟩
    · have hafter : (courses.of th.job th.past).after ⟨i, r⟩ = x := Option.some.inj hafter
      rw [← hafter] at hrefused
      rcases Course.refused_after (e := ⟨tid', th.job, ⟨i, r⟩, c.shared, s⟩) hrefused
        with hbefore | hkey
      · obtain ⟨e, he, hrest⟩ := h.refused tid' _ (Config.tracks_thread hf.thread) hbefore
        exact ⟨e, List.mem_cons_of_mem _ he, hrest⟩
      · exact ⟨_, List.mem_cons_self, rfl, hkey⟩
    · obtain ⟨e, he, hrest⟩ := h.refused tid' x hx hrefused
      exact ⟨e, List.mem_cons_of_mem _ he, hrest⟩
  ends := ⟨fun _ hunheard hends => h.ends_fire hreach hf hmay hunheard hends, h.ends⟩

end

end Fire

theorem Heard.start {f : ℕ → Option Course} (h : Heard P s tr f) (tid : ℕ) (j : Job) :
    Heard P s tr (Function.update f tid (some (courses.start j))) := by
  refine ⟨h.stored, fun tid' x w t items calls n hx hjob hcleared => ?_,
    fun tid' x hx hrefused => ?_, h.ends⟩
  · rcases of_update hx with ⟨-, hx⟩ | ⟨-, hx⟩
    · cases hx
      cases hcleared
    · exact h.cleared tid' x w t items calls n hx hjob hcleared
  · rcases of_update hx with ⟨-, hx⟩ | ⟨-, hx⟩
    · cases hx
      cases hrefused
    · exact h.refused tid' x hx hrefused

theorem Heard.fewer {f f' : ℕ → Option Course} (h : Heard P s tr f)
    (hf : ∀ tid x, f' tid = some x → f tid = some x) : Heard P s tr f' :=
  ⟨h.stored, fun tid x w t items calls n hx => h.cleared tid x w t items calls n (hf tid x hx),
    fun tid x hx => h.refused tid x (hf tid x hx), h.ends⟩

theorem Heard.init : Heard P {} [] fun _ => none where
  stored _ _ hx := by cases hx
  cleared _ _ _ _ _ _ _ hx := by cases hx
  refused _ _ hx := by cases hx
  ends := trivial

/-- Every run keeps it. -/
theorem Reaches.heard (h : Reaches P (fun c l => takenUpInTime P c l = true) c) :
    Heard P c.shared c.trace (c.tracks courses) := by
  refine Reach.tracks finishes_body h (G := Heard P) ?_ ?_ ?_ ?_ ?_
  · exact .init
  · exact fun _ _ _ tid j hG => hG.start tid j
  · exact fun _ _ _ _ hf hG => hG.fewer hf
  · exact fun _ _ _ _ _ _ _ _ hr hok hf hmay hG => hG.fire hr hok hf hmay
  · intro c v s _ _ hv hG
    have hdb : s.db = c.shared.db := World.step_db hv
    obtain ⟨hstored, hcleared, hrefused, hends⟩ := hG
    rw [← hdb] at hstored hcleared
    exact ⟨hstored, hcleared, hrefused, hends⟩

/-- **A task outlives an unanswered question.** In every run in which workers take up such tasks in
time: a task that was resumed because its confirmation had expired does not end before the model was
asked with the result that says so, unless it is cancelled, has no steps left or there is no key of
the provider. -/
theorem task_outlives_question (h : Reaches P (fun c l => takenUpInTime P c l = true) c)
    {later mid past : List Ev}
    {e e₁ : Ev} {x : Item} (htrace : c.trace = later ++ e :: (mid ++ e₁ :: past))
    (hresumed : answersExpired P T e₁ = some x) (hends : taskEnds T e = true) :
    (∃ a ∈ mid, x ∈ askedWith T a) ∨ excused P T (mid ++ e₁ :: past) e = true := by
  by_cases hasked : ∃ a ∈ mid, x ∈ askedWith T a
  · exact .inl hasked
  · have hunheard : x ∈ unheard P T (mid ++ e₁ :: past) :=
      mem_unheard.mpr ⟨mid, e₁, past, rfl, hresumed, fun a ha hx => hasked ⟨a, ha, hx⟩⟩
    have hall := h.heard.ends
    rw [htrace] at hall
    exact .inr (hall.at T (List.ne_nil_of_mem hunheard) hends)

/-- Task 9 waits for a confirmation, which expires; it is resumed, and a worker takes it up (thread
9). -/
def questionExpired : List Lbl :=
  opening ++ starting ++ working ++ pausing ++
    [.env (.clock (2 * hour)), .exec 2 (.flag false)] ++ commits 2 4 ++
    [.exec 8 (.flag false)] ++ commits 8 1

/-- The service with more time for tasks than for answers. -/
def patient : Params := { sample with opts := { sample.opts with taskTimeout := 10 * hour } }

/-- The model is asked once more before the task ends. -/
theorem task_outlives_question_patient : ∃ c e mid e₁ past x,
    Reaches patient (fun c l => takenUpInTime patient c l = true) c ∧
    c.trace = e :: (mid ++ e₁ :: past) ∧
      answersExpired patient 9 e₁ = some x ∧ taskEnds 9 e = true ∧
      ((∃ a ∈ mid, x ∈ askedWith 9 a) ∨ excused patient 9 (mid ++ e₁ :: past) e = true) := by
  have hrun : ((machine patient).run (takenUpInTime patient) start (questionExpired ++
      [.exec 9 (.flag false), .exec 9 (.time (2 * hour)), .exec 9 (.key .key),
        .exec 9 (.decision (.ok ⟨"done", [], ⟨"step"⟩⟩))] ++ commits 9 1)).any (fun c =>
          c.trace.head?.any (taskEnds 9) && c.trace.tail.any fun e =>
            (answersExpired patient 9 e).isSome) = true := by
    decide +kernel
  obtain ⟨c, hc, hboth⟩ := (Option.any_eq_true ..).mp hrun
  have hreach : Reaches patient (fun c l => takenUpInTime patient c l = true) c :=
    Reach.of_run .init hc
  obtain ⟨hhead, htail⟩ := Bool.and_eq_true_iff.mp hboth
  obtain ⟨e, he, hends⟩ := (Option.any_eq_true ..).mp hhead
  obtain ⟨rest, htrace⟩ := List.head?_eq_some_iff.mp he
  obtain ⟨e₁, he₁, hsome⟩ := List.any_eq_true.mp htail
  obtain ⟨x, hx⟩ := Option.isSome_iff_exists.mp hsome
  rw [htrace] at he₁
  obtain ⟨mid, past, hrest⟩ := List.append_of_mem he₁
  have htrace : c.trace = [] ++ e :: (mid ++ e₁ :: past) := by rw [htrace, ← hrest]; rfl
  exact ⟨c, e, mid, e₁, past, x, hreach, htrace, hx, hends,
    task_outlives_question hreach htrace hx hends⟩

/-- **A task is ended by an unanswered question**: there is as much time to answer as for the whole
task, so when the confirmation has expired the deadline has passed, and the task ends without the
model being asked. -/
theorem task_ended_by_question : ∃ c e mid e₁ past x, Reachable sample c ∧
    c.trace = e :: (mid ++ e₁ :: past) ∧
    answersExpired sample 9 e₁ = some x ∧ taskEnds 9 e = true ∧ (∀ a ∈ mid, x ∉ askedWith 9 a) ∧
      excused sample 9 (mid ++ e₁ :: past) e = false := by
  have hrun : ((machine sample).run anything start (questionExpired ++
      [.exec 9 (.flag false), .exec 9 (.time (2 * hour))] ++ commits 9 1)).any (fun c =>
        c.trace.head?.any (fun e => taskEnds 9 e && !excused sample 9 c.trace.tail e) &&
          (unheard sample 9 c.trace.tail).head?.isSome) = true := by
    decide +kernel
  obtain ⟨c, hc, hboth⟩ := reachable_of_run hrun
  obtain ⟨hhead, htail⟩ := Bool.and_eq_true_iff.mp hboth
  obtain ⟨e, he, hends⟩ := (Option.any_eq_true ..).mp hhead
  obtain ⟨hends, hexcused⟩ := Bool.and_eq_true_iff.mp hends
  obtain ⟨rest, htrace⟩ := List.head?_eq_some_iff.mp he
  obtain ⟨x, hx⟩ := Option.isSome_iff_exists.mp htail
  rw [htrace, List.tail_cons] at hexcused hx
  obtain ⟨mid, e₁, past, rfl, hresumed, hmid⟩ := mem_unheard.mp (List.mem_of_mem_head? hx)
  exact ⟨c, e, mid, e₁, past, x, hc, htrace, hresumed, hends, hmid,
    (Bool.not_eq_true' _).mp hexcused⟩

end Jarvis.Orchestrator
