import Jarvis.Interleave.Track
import Jarvis.Orchestrator.Progress
import Jarvis.Trace

/-!
# Workers that have lost their task

`SaveProgress` reports whether the task is still the worker's own, and `save` does not look at it:
the worker goes on with its own copy of the task until its context ends, which is up to the
goroutine that renews the lease.
-/

namespace Jarvis.Orchestrator

open Interleave Engine Trace

variable {P : Params} {c : Cfg}

/-- The requests of tools, and the request for a step of the model. -/
def Instr.acts : Instr → Bool
  | .decide .. | .mcpCall .. | .retrieve .. | .upsertNote .. | .deviceClient .. | .deviceSend ..
  | .deviceRecv .. | .db (.devices ..) => true
  | _ => false

/-- The request saves the progress of a task. -/
def Instr.saves : Instr → Bool
  | .db (.saveProgress ..) => true
  | _ => false

/-- The worker leases the task. -/
def leases (w : Owner) (T : UUID) (e : Ev) : Bool :=
  match e.act with
  | ⟨.db (.leaseTask w' _), .ok t⟩ => w' = w ∧ t.id = T
  | _ => false

/-- `SaveProgress` reports to the worker that the task is not its own. -/
def reportsLoss (w : Owner) (T : UUID) (e : Ev) : Bool :=
  match e.act with
  | ⟨.db (.saveProgress t w'), .ok false⟩ => w' = w ∧ t.id = T
  | _ => false

/-- The worker was told that it has lost the task, and has not leased it since. -/
def lost (w : Owner) (T : UUID) : List Ev → Bool
  | [] => false
  | e :: tr => !leases w T e && (reportsLoss w T e || lost w T tr)

/-- Whether a program has a request to make. -/
def makesRequest {α : Type} : Op α → Bool
  | .ret _ => false
  | .act .. => true

/-! ### Rounds -/

/-- A round of `runTask`. -/
structure RoundState where
  owner : Owner
  task : Task
  calls : List ToolCall
  /-- What it does next is to run its tool, or to ask for a step. -/
  armed : Bool := false

/-- What makes a round act: a clock before the deadline if a call is pending that does more than
fail, or the provider's key. -/
def RoundState.arms (P : Params) (r : RoundState) : (Σ i, Answer i) → Bool
  | ⟨.now, time⟩ =>
    time ≤ r.task.deadline && r.calls.head?.any fun call => makesRequest (runTool P r.task call)
  | ⟨.providerKey .., answer⟩ => answer = .key
  | _ => false

/-- A round goes on. -/
def RoundState.after (P : Params) (r : RoundState) (e : Σ i, Answer i) : RoundState :=
  { r with armed := !e.1.saves && (r.armed || r.arms P e) }

/-- The round a thread is in. -/
def rounds (P : Params) : Tracker Instr Answer Job (Option RoundState) where
  start
    | .runTask owner t _ calls _ => some { owner, task := t, calls }
    | _ => none
  after x e := x.map fun r => r.after P e

/-- A round acts only if it is armed. -/
def MayAct (x : Option RoundState) (i : Instr) : Prop :=
  i.acts = true → ∀ r, x = some r → r.armed = true

/-- What a program does, and nothing of how it ends. -/
abbrev Acts (P : Params) {α : Type} (x : Option RoundState) (p : Op α) : Prop :=
  Follows (rounds P).after MayAct (fun _ _ => True) x p

variable {α : Type} {i : Instr} {q : Query} {p : Op α} {r : RoundState} {owner : Owner}
  {items : List Item} {calls : List ToolCall} {n : ℕ} {t : Task} {tr : List Ev}

theorem acts_other (p : Op α) : Acts P none p := by
  induction p with
  | ret a => trivial
  | act i k ih => exact ⟨fun _ => nofun, fun r => ih r⟩

/-- A program that does not act at all. -/
abbrev Passive {α : Type} (p : Op α) : Prop := p.Only fun i => i.acts = false

theorem Passive.ask (h : i.acts = false) : Passive (ask i) := .call h

theorem Passive.query (h : (Instr.db q).acts = false) : Passive (query q) := .call h

theorem Passive.follows (h : Passive p) : Acts P x p := by
  induction p generalizing x with
  | ret a => trivial
  | act i k ih => exact ⟨fun hacts => absurd (h.1.symm.trans hacts) nofun, fun r => ih r (h.2 r)⟩

theorem passive_finished (t : Task) : Passive (finished P t) := by
  unfold finished auditFinished audit emit notify onlyIf
  repeat' with_reducible first
    | exact .pure _ | refine Passive.query ?_ | refine Passive.ask ?_
    | refine .bind ?_ fun _ => ?_ | split
  all_goals rfl

theorem passive_finish (owner : Owner) (t : Task) (items : List Item) (calls : List ToolCall)
    (state : TaskState) (result : String) :
    Passive (finish P owner t items calls state result) := by
  unfold finish
  repeat' with_reducible first
    | exact .pure _ | refine Passive.query ?_ | exact passive_finished ..
    | refine .bind ?_ fun _ => ?_ | split
  all_goals rfl

theorem passive_pauseTask (owner : Owner) (t : Task) (items : List Item) (call : ToolCall)
    (calls : List ToolCall) (p : Pause) : Passive (pauseTask P owner t items call calls p) := by
  unfold pauseTask saveApproval approvalExpiry expireWithoutConversation audit emit notify onlyIf
  repeat' with_reducible first
    | exact .pure _ | refine Passive.query ?_ | refine Passive.ask ?_
    | refine .bind ?_ fun _ => ?_ | split
  all_goals rfl

theorem passive_save (owner : Owner) (t : Task) (items : List Item) (calls : List ToolCall) :
    Passive (save owner t items calls) := .bind (Passive.query rfl) fun _ => .pure _

/-- A program that does not save the progress of a task. -/
abbrev Unsaving {α : Type} (p : Op α) : Prop := p.Only fun i => i.saves = false

theorem Unsaving.ask (h : i.saves = false) : Unsaving (ask i) := .call h

theorem Unsaving.query (h : (Instr.db q).saves = false) : Unsaving (query q) := .call h

theorem unsaving_execute (call : Caller) (target : Target) (args : String) :
    Unsaving (execute P call target args) := by
  unfold execute dispatch recallMemory remember runDevice callMCP execDevice auditCommand audit
  repeat' with_reducible first
    | exact .pure _ | refine Unsaving.query ?_ | refine Unsaving.ask ?_
    | refine .bind ?_ fun _ => ?_ | split
  all_goals rfl

/-- An armed round does what it likes until it saves. -/
theorem Unsaving.follows (h : Unsaving p) (hr : r.armed = true) :
    Acts P (some r) p := by
  induction p generalizing r with
  | ret a => trivial
  | act i k ih =>
    refine ⟨fun _ r' heq => Option.some.inj heq ▸ hr, fun a => ih a (h.2 a) ?_⟩
    simp only [RoundState.after, h.1, hr, Bool.true_or, Bool.not_false, Bool.and_self]

theorem acts_runCall (hr : makesRequest (runTool P r.task call) = true → r.armed = true) :
    Acts P (some r) (runCall P owner r.task items call calls n) := by
  have htool : Acts P (some r) (runTool P r.task call) := by
    cases htool : runTool P r.task call with
    | ret out => trivial
    | act i k =>
      rw [htool] at hr
      have hunsaving : Unsaving (runTool P r.task call) := by
        unfold runTool
        split
        · exact unsaving_execute ..
        · exact .pure _
      rw [htool] at hunsaving
      exact hunsaving.follows (hr rfl)
  refine .bind htool fun x out _ => Passive.follows ?_
  split
  · exact .bind (passive_pauseTask ..) fun _ => .pure _
  · exact .bind (passive_save ..) fun _ => .pure _

theorem acts_decide : Acts P (some r) (Engine.decide t items) := by
  have hkey : Follows (rounds P).after MayAct
      (fun x answer => answer = KeyAnswer.key → x = some { r with armed := true }) (some r)
      (ask (.providerKey t.tenantID t.provider)) := by
    refine .call nofun fun answer hanswer => ?_
    simp [rounds, RoundState.after, Instr.saves, RoundState.arms, hanswer]
  unfold Engine.decide
  refine .bind hkey fun x answer hx => ?_
  split
  · exact .pure trivial
  · exact .pure trivial
  · rw [hx rfl]
    have hdecide : Acts P (some { r with armed := true })
      (ask (.decide t.id t.provider items t.tools)) :=
      .call (fun _ r' heq => Option.some.inj heq ▸ rfl) fun _ => trivial
    refine .bind hdecide fun _ _ _ => Passive.follows ?_
    split <;> exact .pure _

theorem acts_runDecide :
    Acts P (some r) (runDecide P owner t items n) := by
  refine .bind acts_decide fun x resp _ => Passive.follows ?_
  repeat' with_reducible first
    | exact .pure _ | refine Passive.ask ?_ | exact passive_finish .. | exact passive_save ..
    | refine .bind ?_ fun _ => ?_ | split
  all_goals rfl

theorem acts_runTask (owner : Owner) (t : Task) (items : List Item) (calls : List ToolCall)
    (n : ℕ) : Acts P (some { owner, task := t, calls }) (runTask P owner t items calls n) := by
  have hstopped : Follows (rounds P).after MayAct (fun x _ => x = some { owner, task := t, calls })
      (some { owner, task := t, calls }) (ask .ctxErr) := .call nofun fun _ => rfl
  have hclock : Follows (rounds P).after MayAct
      (fun x time => x = some (RoundState.after P { owner, task := t, calls } ⟨.now, time⟩))
      (some { owner, task := t, calls }) (ask .now) := .call nofun fun _ => rfl
  unfold runTask
  refine .bind hstopped fun x stopped hx => ?_
  subst hx
  by_cases hstop : stopped = true
  · rw [if_pos hstop]
    exact .pure trivial
  rw [if_neg hstop]
  refine .bind hclock fun x time hx => ?_
  subst hx
  by_cases hlate : t.deadline < time
  · rw [if_pos hlate]
    exact Passive.follows (.bind (passive_finish ..) fun _ => .pure _)
  rw [if_neg hlate]
  split
  · rename_i call calls
    -- The clock has armed the round if its tool has a request to make.
    refine acts_runCall fun htool => ?_
    simp only [RoundState.after, RoundState.arms, Instr.saves, List.head?_cons, Option.any_some,
      Bool.not_false, Bool.false_or, Bool.true_and, Bool.and_eq_true, decide_eq_true_eq]
    exact ⟨not_lt.mp hlate, htool⟩
  · split_ifs
    · exact Passive.follows (.bind (passive_finish ..) fun _ => .pure _)
    · exact acts_runDecide

theorem acts_body (j : Job) : Acts P ((rounds P).start j) (body P j) := by
  cases j
  case runTask owner t items calls n =>
    refine .bind (acts_runTask owner t items calls n) fun _ next _ => ?_
    cases next <;> exact .pure trivial
  all_goals exact acts_other _

/-! ### The condition -/

/-- The step gives a round what makes it act. -/
def RoundState.armedBy (P : Params) (r : RoundState) : Instr → Oracle → Bool
  | .now, .time time => r.arms P ⟨.now, time⟩
  | .providerKey tenant provider, .key answer => r.arms P ⟨.providerKey tenant provider, answer⟩
  | _, _ => false

/-- The condition on steps. Two inputs of a round are restricted, while its worker has lost its
task: the time it reads is not one at which it goes on to a request of a tool, and it is given no
provider key, which it needs to ask for a step. -/
def heeds (P : Params) (c : Cfg) : Lbl → Bool
  | .exec tid o =>
    ((c.tracks (rounds P) tid).join).all fun r => (c.next tid).all fun i =>
      !r.armedBy P i o || !lost r.owner r.task.id c.trace
  | _ => true

section Heeds

variable {tid : ℕ} {o : Oracle} {th : Thread Instr Answer Job} {k : Answer i → Op (List Job)}
  {r : Answer i} {s : Shared} {j : Job} {past : Log} {x : RoundState} {w : Owner}
  {T : UUID} {e : Ev}

theorem armedBy_of_arms (h : answer c.shared i o = some (r, s)) (harms : x.arms P ⟨i, r⟩ = true) :
    x.armedBy P i o = true := by
  cases i
  case now =>
    cases o <;> cases h
    exact harms
  case providerKey =>
    cases o <;> cases h
    exact harms
  all_goals cases harms

/-- A worker that is armed by a step has not lost its task. -/
theorem not_lost_of_heeds (hok : heeds P c (.exec tid o) = true)
    (hf : Fires (machine P) c tid o th i k r s)
    (hx : (rounds P).of th.job th.past = some x) (harms : x.arms P ⟨i, r⟩ = true) :
    lost x.owner x.task.id c.trace = false := by
  simp only [heeds, Config.tracks_thread hf.thread, hx, Option.join_some, hf.next, Option.all_some,
    armedBy_of_arms hf.answer harms, Bool.not_true, Bool.false_or, Bool.not_eq_true'] at hok
  exact hok

/-- A round keeps its owner and its task. -/
theorem rounds_of_runTask (w : Owner) (t : Task) (items : List Item) (calls : List ToolCall) (n : ℕ)
    (past : Log) :
    ∃ x, (rounds P).of (.runTask w t items calls n) past = some x ∧ x.owner = w ∧ x.task = t := by
  induction past with
  | nil => exact ⟨_, rfl, rfl, rfl⟩
  | cons e past ih =>
    obtain ⟨x, hx, hw, ht⟩ := ih
    refine ⟨x.after P e, ?_, hw, ht⟩
    rw [Tracker.of, hx]
    rfl

theorem rounds_of_other (h : (rounds P).start j = none) : (rounds P).of j past = none := by
  induction past with
  | nil => exact h
  | cons e past ih => rw [Tracker.of, ih]; rfl

/-- A thread in a round is that worker. -/
theorem worker_of_rounds (hx : (rounds P).of j past = some x) : workerOf j = some x.owner := by
  cases j
  case runTask w t items calls n =>
    obtain ⟨x', hx', hw, -⟩ := rounds_of_runTask (P := P) w t items calls n past
    rw [hx] at hx'
    rw [Option.some.inj hx', hw]
    rfl
  all_goals
    rw [rounds_of_other rfl] at hx
    cases hx

theorem saves_of_reportsLoss (h : reportsLoss w T e = true) : ∃ t,
    e.act.1 = .db (.saveProgress t w) := by
  unfold reportsLoss at h
  split at h
  · rename_i t w' hact
    obtain ⟨rfl, -⟩ := of_decide_eq_true h
    exact ⟨t, by rw [hact]⟩
  · cases h

theorem lost_cons_of_not (h : reportsLoss w T e = false) (hlost : lost w T tr = false) :
    lost w T (e :: tr) = false := by
  rw [lost, h, hlost, Bool.or_self, Bool.and_false]

end Heeds

/-- What every run keeps: a worker that has lost its task has not acted on it, and is not about
to. -/
structure Heeded (tr : List Ev) (f : ℕ → Option (Option RoundState)) : Prop where
  idle : Each (fun past e => ∀ w t items calls n, e.job = .runTask w t items calls n →
    lost w t.id past = true →
    e.act.1.acts = false) tr
  unarmed : ∀ tid x, f tid = some (some x) → x.armed = true → lost x.owner x.task.id tr = false

/-- Nothing changes for the other threads, and a thread that starts is not armed. -/
theorem Heeded.start {f : ℕ → Option (Option RoundState)} (h : Heeded tr f) (tid : ℕ) (j : Job) :
    Heeded tr (Function.update f tid (some ((rounds P).start j))) := by
  refine ⟨h.idle, fun tid' x hx harmed => ?_⟩
  rcases of_update hx with ⟨-, hx⟩ | ⟨-, hx⟩
  · cases j
    case runTask =>
      cases hx
      cases harmed
    all_goals cases hx
  · exact h.unarmed tid' x hx harmed

theorem Heeded.fire {tid : ℕ} {o : Oracle} {th : Thread Instr Answer Job}
    {k : Answer i → Op (List Job)} {r : Answer i} {s : Shared}
    (h : Heeded c.trace (c.tracks (rounds P)))
    (hreach : Reaches P (fun c l => heeds P c l = true) c) (hok : heeds P c (.exec tid o) = true)
    (hf : Fires (machine P) c tid o th i k r s) (hmay : MayAct ((rounds P).of th.job th.past) i) :
    Heeded (⟨tid, th.job, ⟨i, r⟩, c.shared, s⟩ :: c.trace)
      (Function.update (c.tracks (rounds P)) tid
        (some ((rounds P).after ((rounds P).of th.job th.past) ⟨i, r⟩))) := by
  have hown : c.tracks (rounds P) tid = some ((rounds P).of th.job th.past) :=
    Config.tracks_thread hf.thread
  refine ⟨⟨fun w t items calls n hj hlost => ?_, h.idle⟩, fun tid' x hx harmed => ?_⟩
  · -- A round that acts is armed.
    obtain ⟨x, hx, rfl, rfl⟩ := rounds_of_runTask (P := P) w t items calls n th.past
    rw [← show th.job = _ from hj] at hx
    rw [Bool.eq_false_iff]
    intro hacts
    rw [h.unarmed tid x (hown.trans (congrArg some hx)) (hmay hacts x hx)] at hlost
    cases hlost
  rcases of_update hx with ⟨-, hx⟩ | ⟨htid, hx⟩
  · obtain ⟨x₀, hx₀, rfl⟩ := Option.map_eq_some_iff.mp (Option.some.inj hx)
    obtain ⟨hsaves, harmed⟩ := Bool.and_eq_true_iff.mp harmed
    refine lost_cons_of_not (Bool.eq_false_iff.mpr fun hloss => ?_) ?_
    · obtain ⟨t, hi⟩ := saves_of_reportsLoss hloss
      have hi : i.saves = true := congrArg Instr.saves hi
      rw [hi] at hsaves
      cases hsaves
    · rcases Bool.or_eq_true_iff.mp harmed with harmed | harms
      · exact h.unarmed tid x₀ (hown.trans (congrArg some hx₀)) harmed
      · have hheld : lost x₀.owner x₀.task.id c.trace = false := not_lost_of_heeds hok hf hx₀ harms
        exact hheld
  · refine lost_cons_of_not (Bool.eq_false_iff.mpr fun hloss => htid ?_)
      (h.unarmed tid' x hx harmed)
    -- Whoever is told of the loss is this worker, and each worker is one thread at a time.
    obtain ⟨t, hi⟩ := saves_of_reportsLoss hloss
    have hi : i = .db (.saveProgress t x.owner) := hi
    have hdoes := hreach.does hf
    rw [hi] at hdoes
    obtain ⟨_, _, _, _, hj, -⟩ := hdoes.saveProgress_inv
    obtain ⟨th', hth', hx'⟩ := Option.map_eq_some_iff.mp hx
    exact hreach.workers.unique tid' tid th' th x.owner hth' hf.thread
      (worker_of_rounds hx') (hj ▸ rfl)

/-- Fewer threads. -/
theorem Heeded.fewer {f f' : ℕ → Option (Option RoundState)} (h : Heeded tr f)
    (hf : ∀ tid x, f' tid = some x → f tid = some x) : Heeded tr f' :=
  ⟨h.idle, fun tid x hx => h.unarmed tid x (hf tid (some x) hx)⟩

/-- Every run keeps it. -/
theorem Reaches.heeded (h : Reaches P (fun c l => heeds P c l = true) c) :
    Heeded c.trace (c.tracks (rounds P)) := by
  refine Reach.tracks acts_body h (G := fun _ tr f => Heeded tr f) ?_ ?_ ?_ ?_ ?_
  · exact ⟨trivial, fun _ _ hx => by cases hx⟩
  · exact fun _ _ _ tid j hG => hG.start tid j
  · exact fun _ _ _ _ hf hG => hG.fewer hf
  · exact fun _ _ _ _ _ _ _ _ hr hok hf hmay hG => hG.fire hr hok hf hmay
  · exact fun _ _ _ _ _ _ hG => hG

/-- **A worker that has lost its task stops acting.** In every run in which such a worker is stopped
before it has what it needs to act: once `SaveProgress` has told it that the task is not its own,
and until it leases the task again, it asks for no step of that task and runs none of its tools. -/
theorem lost_task_left_alone (h : Reaches P (fun c l => heeds P c l = true) c)
    {later past : List Ev} {e : Ev} (htrace : c.trace = later ++ e :: past) {w : Owner}
    (hjob : e.job = .runTask w t items calls n) (hlost : lost w t.id past = true) :
    e.act.1.acts = false := by
  have hidle := h.heeded.idle
  rw [htrace] at hidle
  exact hidle.at w t items calls n hjob hlost

/-- The worker of task 9 asks for a step and is told to call a tool, the task is cancelled, and the
worker is told that it has lost the task. -/
def cancelledMeanwhile : List Lbl :=
  opening ++ starting ++ [.exec 0 (.flag false)] ++ commits 0 1 ++
    [.exec 5 (.flag false), .exec 5 (.time 0), .exec 5 (.key .key),
      .exec 5 (.decision (.ok ⟨"", [⟨"m1", "nope", ""⟩], ⟨"step"⟩⟩))] ++
    [.request 0 (.cancelTask 1 "ann" 9)] ++ commits 7 2 ++ commits 5 1

/-- The last event is of a worker that has lost its task. -/
def lostAtLast (c : Cfg) : Bool :=
  match c.trace with
  | ⟨_, .runTask w t .., _, _, _⟩ :: past => lost w t.id past
  | _ => false

theorem lostAtLast_spec (h : lostAtLast c = true) : ∃ e past w t items calls n,
    c.trace = e :: past ∧ e.job = .runTask w t items calls n ∧ lost w t.id past = true := by
  unfold lostAtLast at h
  split at h
  · rename_i tid w t items calls n act before after past htrace
    exact ⟨_, _, _, _, _, _, _, htrace, rfl, h⟩
  · cases h

/-- The worker of a cancelled task does nothing more with it. -/
theorem lost_task_left_alone_stopped : ∃ c e past,
    Reaches sample (fun c l => heeds sample c l = true) c ∧
    c.trace = e :: past ∧ (∃ w t items calls n, e.job = .runTask w t items calls n ∧
      lost w t.id past = true) ∧ e.act.1.acts = false := by
  have hrun : ((machine sample).run (heeds sample) start
      (cancelledMeanwhile ++ [.exec 8 (.flag true)])).any lostAtLast = true := by
    decide +kernel
  obtain ⟨c, hc, hlast⟩ := (Option.any_eq_true ..).mp hrun
  have hreach : Reaches sample (fun c l => heeds sample c l = true) c := Reach.of_run .init hc
  obtain ⟨e, past, w, t, items, calls, n, htrace, hjob, hlost⟩ := lostAtLast_spec hlast
  exact ⟨c, e, past, hreach, htrace, ⟨w, t, items, calls, n, hjob, hlost⟩,
    lost_task_left_alone hreach (show c.trace = [] ++ e :: past from htrace) hjob hlost⟩

/-- **A worker goes on with a task it has lost**: the tool is unknown, so the worker saves once
more, is told once more, and asks for the next step. -/
theorem lost_task_decided : ∃ c e past w t items calls n, Reachable sample c ∧ c.trace = e :: past ∧
    e.job = .runTask w t items calls n ∧ lost w t.id past = true ∧ e.act.1.acts = true := by
  have hrun :
    ((machine sample).run anything start
      (cancelledMeanwhile ++ [.exec 8 (.flag false), .exec 8 (.time 0)] ++
      commits 8 1 ++ [.exec 9 (.flag false), .exec 9 (.time 0), .exec 9 (.key .key),
        .exec 9 (.decision (.error .unavailable))])).any
      (fun c => lostAtLast c && c.trace.head?.all fun e => e.act.1.acts) = true := by
    decide +kernel
  obtain ⟨c, hc, hboth⟩ := reachable_of_run hrun
  obtain ⟨hlast, hacts⟩ := Bool.and_eq_true_iff.mp hboth
  obtain ⟨e, past, w, t, items, calls, n, htrace, hjob, hlost⟩ := lostAtLast_spec hlast
  rw [htrace] at hacts
  exact ⟨c, e, past, w, t, items, calls, n, hc, htrace, hjob, hlost, hacts⟩

end Jarvis.Orchestrator
