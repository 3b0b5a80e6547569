import Jarvis.Interleave.Track
import Jarvis.Orchestrator.System
import Jarvis.Trace

/-!
# How often a memory job is handed out

`LeaseMemoryJob` counts how often a job was handed out, and takes whatever is due. The bound is
checked by the worker, after it has run the job, and with the number that its own lease gave it;
`FinishMemoryJob` writes the outcome over whatever is in the row.
-/

namespace Jarvis.Orchestrator

open Interleave Engine Table Trace

variable {P : Params} {c : Cfg} {k : UUID}

/-! ### What a statement does to a job -/

/-- The job is marked done or failed. -/
def MemoryJob.finished (j : MemoryJob) : Bool := j.state = .done || j.state = .failed

/-- The job of the conversation is marked done or failed. -/
def DB.jobFinished (db : DB) (k : UUID) : Bool := (db.memoryJob k).any MemoryJob.finished

/-- The row of a job that is handed out. -/
def MemoryJob.leased (duration now : Time) (j : MemoryJob) : MemoryJob :=
  { j with state := .running, attempts := j.attempts + 1, leaseUntil := some (now + duration) }

/-- The row of a job whose outcome is written. -/
def MemoryJob.ended (state : MemoryState) (retryAfter now : Time) (j : MemoryJob) : MemoryJob :=
  { j with state, leaseUntil := none, notBefore := now + retryAfter }

/-- What a statement can make of a job. -/
inductive JobStep (locked : List ℕ) (now : Time) (db : DB) (k : UUID) :
    Query → Option MemoryJob → Prop
  | same {q : Query} : JobStep locked now db k q (db.memoryJob k)
  | queue (hnone : db.memoryJob k = none) :
      JobStep locked now db k (.queueMemoryJob k) (some ⟨k, .queued, 0, none, now⟩)
  | lease {duration : Time} {j : MemoryJob} (hj : db.memoryJob k = some j)
      (hdue : j.state = .queued ∨ j.state = .running)
      (hnext : db.nextMemoryJob locked now = some j) :
      JobStep locked now db k (.leaseMemoryJob duration) (some (j.leased duration now))
  | finish {state : MemoryState} {retryAfter : Time} {j : MemoryJob}
    (hj : db.memoryJob k = some j) :
      JobStep locked now db k (.finishMemoryJob k state retryAfter)
        (some (j.ended state retryAfter now))

variable {q : Query}

section Rows

variable {locked : List ℕ} {now : Time} {db : DB}

theorem Query.exec_keyed_memoryJobs (h : Keyed MemoryJob.conversationID db.memoryJobs) :
    Keyed MemoryJob.conversationID (q.exec locked now db).2.memoryJobs := by
  by_cases hw : Tab.memoryJobs ∈ q.writes
  · cases q with
    | queueMemoryJob id =>
      simp only [exec, DB.queueMemoryJob]
      split_ifs with hconv hjob
      · exact h
      · exact h
      · exact h.insert (Option.not_isSome_iff_eq_none.mp hjob)
    | leaseMemoryJob duration =>
      simp only [exec, DB.leaseMemoryJob]
      split
      · exact h
      · exact h.set fun _ => rfl
    | finishMemoryJob id state retryAfter => exact h.set fun _ => rfl
    | _ => simp [Query.writes] at hw
  · rw [show _ = _ from exec_same .memoryJobs hw]
    exact h

/-- `LeaseMemoryJob` takes the job that is next, which is queued or running, or none. -/
theorem leaseMemoryJob_cases (locked : List ℕ) (now duration : Time)
    (h : Keyed MemoryJob.conversationID db.memoryJobs) :
    db.leaseMemoryJob duration locked now = (.error .notFound, db) ∨
    ∃ j, db.nextMemoryJob locked now = some j ∧ db.memoryJob j.conversationID = some j ∧
      (j.state = .queued ∨ j.state = .running) ∧
      (db.leaseMemoryJob duration locked now).1 = .ok (j.conversationID, j.attempts + 1) ∧
      (db.leaseMemoryJob duration locked now).2.memoryJobs =
        Table.set (·.conversationID = j.conversationID) (MemoryJob.leased duration now)
          db.memoryJobs := by
  unfold DB.leaseMemoryJob
  split
  · exact .inl rfl
  · rename_i j hj
    have hmem := mem_orderBy.mp (List.mem_of_mem_head? (Option.mem_def.mpr hj))
    obtain ⟨hmem, hdue⟩ := List.mem_filter.mp hmem
    simp only [Bool.and_eq_true, Bool.or_eq_true, decide_eq_true_eq] at hdue
    exact .inr ⟨j, hj, h.row_eq hmem, hdue.1.1.imp id And.left, rfl, rfl⟩

/-- What `set` does to the job with an id. -/
theorem memoryJob_set {db' : DB} {id : UUID} {f : MemoryJob → MemoryJob}
    (hdb : db'.memoryJobs = Table.set (·.conversationID = id) f db.memoryJobs)
    (hf : ∀ j, (f j).conversationID = j.conversationID) :
    db'.memoryJob k = if k = id then (db.memoryJob k).map f else db.memoryJob k := by
  unfold DB.memoryJob
  rw [hdb, row_set hf]
  cases hj : row MemoryJob.conversationID k db.memoryJobs with
  | none => simp
  | some j =>
    have hid : j.conversationID = k := row_key hj
    subst hid
    by_cases hk : j.conversationID = id <;> simp [hk]

/-- What a statement does to a job, for every statement. -/
theorem Query.exec_job (h : Keyed MemoryJob.conversationID db.memoryJobs) :
    JobStep locked now db k q ((q.exec locked now db).2.memoryJob k) := by
  by_cases hw : Tab.memoryJobs ∈ q.writes
  · cases q with
    | queueMemoryJob id =>
      simp only [exec, DB.queueMemoryJob]
      split_ifs with hconv hjob
      · exact .same
      · exact .same
      · have hnone : db.memoryJob id = none := Option.not_isSome_iff_eq_none.mp hjob
        dsimp only [DB.memoryJob]
        rw [row_insert]
        by_cases hid : id = k
        · subst hid
          rw [show row MemoryJob.conversationID id db.memoryJobs = _ from hnone,
            Option.none_or, if_pos rfl]
          exact .queue hnone
        · rw [if_neg hid, Option.or_none]
          exact .same
    | leaseMemoryJob duration =>
      rcases leaseMemoryJob_cases locked now duration h with
        hdb | ⟨j, hnext, hj, hdue, -, hdb⟩
      · rw [exec, hdb]
        exact .same
      · rw [exec, memoryJob_set hdb fun _ => rfl]
        split_ifs with hk
        · subst hk
          rw [hj]
          exact .lease hj hdue hnext
        · exact .same
    | finishMemoryJob id state retryAfter =>
      have hdb : (db.finishMemoryJob id state retryAfter now).2.memoryJobs =
          Table.set (·.conversationID = id) (MemoryJob.ended state retryAfter now) db.memoryJobs :=
            rfl
      rw [exec, memoryJob_set hdb fun _ => rfl]
      split_ifs with hk
      · subst hk
        cases hj : db.memoryJob k with
        | none =>
          rw [Option.map_none, ← hj]
          exact .same
        | some j => exact .finish hj
      · exact .same
    | _ => simp [Query.writes] at hw
  · have hsame : db.Same (q.exec locked now db).2 .memoryJobs := exec_same _ hw
    unfold DB.memoryJob
    rw [hsame]
    exact .same

end Rows

/-! ### What a worker has been given -/

/-- What a thread has been given: whether it is a memory worker, and the job with the number of its
lease. -/
structure Entrusted where
  worker : Bool
  lease : Option (UUID × ℕ) := none
  deriving DecidableEq

/-- What a thread has been given, from its exchanges. -/
def entrusted : Tracker Instr Answer Job Entrusted where
  start
    | .memoryWorker => ⟨true, none⟩
    | _ => ⟨false, none⟩
  after t
    | ⟨.db (.leaseMemoryJob _), .ok x⟩ => { t with lease := some x }
    | _ => t

/-- A worker puts back only the job it was given, and only if it was not the last time. -/
def PutsBack (t : Entrusted) (i : Instr) : Prop :=
  t.worker = true → ∀ id retryAfter, i = .db (.finishMemoryJob id .queued retryAfter) →
    ∃ n, t.lease = some (id, n) ∧ n < maxMemoryAttempts

theorem entrusted_worker (t : Entrusted) (e : Σ i, Answer i) :
    (entrusted.after t e).worker = t.worker := by
  unfold entrusted
  dsimp only
  split <;> rfl

variable {α : Type} {t : Entrusted} {i : Instr} {Q : Entrusted → α → Prop} {tid : ℕ} {o : Oracle}
  {th : Thread Instr Answer Job} {s : Shared} {j : MemoryJob}

/-- Other jobs are not spoken of. -/
theorem follows_other (ht : t.worker = false) (p : Op α) :
    Follows entrusted.after PutsBack (fun _ _ => True) t p := by
  induction p generalizing t with
  | ret a => trivial
  | act i k ih =>
    exact ⟨fun h => absurd (ht.symm.trans h) nofun, fun r => ih r ((entrusted_worker t _).trans ht)⟩

/-- A request that is not about leases. -/
theorem follows_aside {f : Answer i → Op α} (hi : PutsBack t i)
    (hsame : ∀ r, entrusted.after t ⟨i, r⟩ = t)
    (hf : ∀ r, Follows entrusted.after PutsBack Q t (f r)) :
    Follows entrusted.after PutsBack Q t (ask i >>= f) := by
  refine ⟨hi, fun r => ?_⟩
  rw [hsame]
  exact hf r

theorem follows_asideQuery {f : Res q.Result → Op α} (hi : PutsBack t (.db q))
    (hsame : ∀ r, entrusted.after t ⟨.db q, r⟩ = t)
    (hf : ∀ r, Follows entrusted.after PutsBack Q t (f r)) :
    Follows entrusted.after PutsBack Q t (query q >>= f) :=
  follows_aside hi hsame hf

theorem follows_extractMemory (t : Entrusted) (id : UUID) :
    Follows entrusted.after PutsBack (fun t' _ => t' = t) t (extractMemory id) := by
  unfold extractMemory
  repeat' with_reducible first
    | exact .pure rfl
    | refine follows_asideQuery ?_ ?_ fun _ => ?_
    | refine follows_aside ?_ ?_ fun _ => ?_
    | split
  all_goals first | exact fun _ => rfl | exact fun _ _ _ => nofun

theorem follows_finishMemory {id : UUID} (ht : t.lease = some (id, attempts)) (r : MemoryResult) :
    Follows entrusted.after PutsBack (fun _ _ => True) t (finishMemory id attempts r) := by
  unfold finishMemory
  split
  · exact .call (fun _ _ _ => nofun) fun _ => trivial
  · exact .call (fun _ _ _ => nofun) fun _ => trivial
  · split_ifs with hmax
    · exact .call (fun _ _ _ => nofun) fun _ => trivial
    · refine .call (fun _ id' retryAfter heq => ?_) fun _ => trivial
      cases heq
      exact ⟨attempts, ht, Nat.lt_of_not_le hmax⟩

theorem follows_memoryWorker : Follows entrusted.after PutsBack (fun _ _ => True)
    ⟨true, none⟩ memoryWorker := by
  unfold memoryWorker
  refine follows_aside (fun _ _ _ => nofun) (fun _ => rfl) fun stopped => ?_
  split_ifs
  · exact .pure trivial
  · have hlease : Follows entrusted.after PutsBack
      (fun t r => ∀ x, r = .ok x → t.lease = some x) ⟨true, none⟩
        (query (.leaseMemoryJob memoryLease)) :=
      .call (fun _ _ _ => nofun) fun r x hr => by rw [hr]; rfl
    refine .bind hlease fun t r ht => ?_
    split
    · exact .pure trivial
    · rename_i id attempts
      refine .bind (follows_extractMemory t id) fun t' r ht' => ?_
      rw [ht']
      exact .bind (follows_finishMemory (ht _ rfl) r) fun _ _ _ => .pure trivial

theorem follows_body (j : Job) :
    Follows entrusted.after PutsBack (fun _ _ => True) (entrusted.start j) (body P j) := by
  cases j
  case memoryWorker => exact .bind follows_memoryWorker fun _ _ _ => .pure trivial
  all_goals exact follows_other rfl _

/-! ### The condition -/

/-- The rows other transactions hold, if the statement takes effect. -/
def Oracle.locked : Oracle → Option (List ℕ)
  | .commit locked | .lost locked => some locked
  | _ => none

/-- What a statement may find in the rows: the job that is next was put back, or is below the bound;
and a job that is put back is not finished, and is below the bound unless its worker is the last
that was given the job. -/
def inTurn (c : Cfg) (tid : ℕ) (locked : List ℕ) : Instr → Bool
  | .db (.leaseMemoryJob _) => (c.shared.db.nextMemoryJob locked c.shared.now).all fun j =>
    j.state = .queued || j.attempts < maxMemoryAttempts
  | .db (.finishMemoryJob k state _) =>
    state = .done || state = .failed || (c.shared.db.memoryJob k).all fun j => !j.finished &&
      (j.attempts < maxMemoryAttempts || c.tracks entrusted tid = some ⟨true, some (k, j.attempts)⟩)
  | _ => true

/-- The condition on steps. -/
def retriesInTurn (c : Cfg) : Lbl → Bool
  | .exec tid o => (c.next tid).all fun i => o.locked.all fun locked => inTurn c tid locked i
  | _ => true

/-! ### What every run keeps -/

/-- The event hands out the job. -/
def handsJob (k : UUID) (e : Ev) : Bool :=
  match e.act with
  | ⟨.db (.leaseMemoryJob _), .ok (id, _)⟩ => id = k
  | _ => false

/-- How often the job was handed out. -/
def handed (k : UUID) (tr : List Ev) : ℕ := tr.countP (handsJob k)

/-- What holds of a job that was handed out so many times. -/
structure MemoryJob.Kept (times : ℕ) (j : MemoryJob) : Prop where
  counted : times ≤ j.attempts
  bound : j.attempts ≤ maxMemoryAttempts
  again : j.state = .queued → j.attempts < maxMemoryAttempts

/-- What holds of all jobs. -/
structure JobsKept (s : Shared) (tr : List Ev) : Prop where
  keyed : Keyed MemoryJob.conversationID s.db.memoryJobs
  jobs : ∀ k j, s.db.memoryJob k = some j → j.Kept (handed k tr)
  unknown : ∀ k, s.db.memoryJob k = none → handed k tr = 0
  finished : ∀ e ∈ tr, ∀ k, e.after.db.jobFinished k = true → s.db.jobFinished k = true
  last : Each (fun past e => ∀ k, handsJob k e = true → ∀ e' ∈ past,
    e'.after.db.jobFinished k = false) tr

section Kept

variable {s' : Shared} {tr : List Ev} {e : Ev}

theorem MemoryJob.Kept.leased (h : j.Kept times) (hlt : j.attempts < maxMemoryAttempts) :
    (j.leased duration now).Kept (times + 1) :=
  ⟨Nat.succ_le_succ h.counted, hlt, nofun⟩

theorem handsJob_inv (h : handsJob k e = true) :
    ∃ duration n, e.act = ⟨.db (.leaseMemoryJob duration), .ok (k, n)⟩ := by
  unfold handsJob at h
  split at h
  · rename_i duration id n hact
    rw [of_decide_eq_true h] at hact
    exact ⟨duration, n, hact⟩
  · cases h

theorem handed_cons : handed k (e :: tr) = handed k tr + if handsJob k e then 1 else 0 :=
  List.countP_cons

theorem handed_cons_of_not (h : handsJob k e = false) : handed k (e :: tr) = handed k tr := by
  rw [handed_cons, if_neg (by rw [h]; nofun), Nat.add_zero]

theorem DB.jobFinished_iff {db : DB} :
    db.jobFinished k = true ↔ ∃ j, db.memoryJob k = some j ∧
    (j.state = .done ∨ j.state = .failed) := by
  simp [DB.jobFinished, MemoryJob.finished, Option.any_eq_true]

/-- A job that is queued or running is not finished. -/
theorem not_jobFinished {db : DB} (hj : db.memoryJob k = some j)
    (hdue : j.state = .queued ∨ j.state = .running) : db.jobFinished k = false := by
  rw [DB.jobFinished, hj, Option.any_some, MemoryJob.finished]
  rcases hdue with hdue | hdue <;> rw [hdue] <;> rfl

/-- A step that leaves the database alone. -/
theorem JobsKept.same (h : JobsKept s tr) (hdb : s'.db = s.db) (hafter : e.after = s')
    (hno : ∀ k, handsJob k e = false) : JobsKept s' (e :: tr) where
  keyed := by
    rw [hdb]
    exact h.keyed
  jobs k j hj := by
    rw [handed_cons_of_not (hno k)]
    exact h.jobs k j (hdb ▸ hj)
  unknown k hk := by
    rw [handed_cons_of_not (hno k)]
    exact h.unknown k (hdb ▸ hk)
  finished e' he' k hk := by
    rcases List.mem_cons.mp he' with rfl | he'
    · rw [← hafter]
      exact hk
    · rw [hdb]
      exact h.finished e' he' k hk
  last := ⟨fun k hk => absurd ((hno k).symm.trans hk) nofun, h.last⟩

end Kept

/-- What the condition says of a statement that takes effect. -/
theorem inTurn_of_fires {f : Answer i → Op (List Job)} (hok : retriesInTurn c (.exec tid o) = true)
    (hf : Fires (machine P) c tid o th i f r s) (ho : o.locked = some locked) :
    inTurn c tid locked i = true := by
  simp only [retriesInTurn, hf.next, ho, Option.all_some] at hok
  exact hok

/-- A job that is taken is below the bound. -/
theorem JobsKept.taken (h : JobsKept c.shared c.trace)
    (hturn : inTurn c tid locked (.db (.leaseMemoryJob duration)) = true)
    (hj : c.shared.db.memoryJob k = some j)
    (hnext : c.shared.db.nextMemoryJob locked c.shared.now = some j) :
    j.attempts < maxMemoryAttempts := by
  simp only [inTurn, hnext, Option.all_some, Bool.or_eq_true, decide_eq_true_eq] at hturn
  exact hturn.elim (h.jobs k j hj).again id

/-- A job that is put back is not finished, and below the bound: its worker was given it, and not
for the last time. -/
theorem put_back {ok : Cfg → Lbl → Prop}
    {f : Answer (.db (.finishMemoryJob k state retryAfter)) → Op (List Job)} (hr : Reaches P ok c)
    (hf : Fires (machine P) c tid o th (.db (.finishMemoryJob k state retryAfter)) f r s)
    (hturn : inTurn c tid locked (.db (.finishMemoryJob k state retryAfter)) = true)
    (hj : c.shared.db.memoryJob k = some j) (hstate : state ≠ .done ∧ state ≠ .failed) :
    j.finished = false ∧ (state = .queued → j.attempts < maxMemoryAttempts) := by
  have hspec := hr.follows (follows_body (P := P)) hf.thread
  rw [hf.prog] at hspec
  have hputs : PutsBack (entrusted.of th.job th.past) _ := hspec.1
  simp only [inTurn, hstate.1, hstate.2, decide_false, Bool.false_or, hj, Option.all_some,
    Bool.and_eq_true,
    Bool.not_eq_true', Bool.or_eq_true, decide_eq_true_eq, Config.tracks_thread hf.thread,
      Option.some.injEq] at hturn
  refine ⟨hturn.1, fun hqueued => ?_⟩
  subst hqueued
  rcases hturn.2 with hlt | hgiven
  · exact hlt
  · obtain ⟨n, hlease, hn⟩ := hputs (by rw [hgiven]) k retryAfter rfl
    rw [hgiven] at hlease
    cases hlease
    exact hn

/-- What a statement does to the row of a job. -/
theorem answer_locked (h : answer s (.db q) o = some (r, s')) :
    (r = .error .failed ∧ s' = s) ∨
    ∃ locked, o.locked = some locked ∧ s' = { s with db := (q.exec locked s.now s.db).2 } ∧
      (r = (q.exec locked s.now s.db).1 ∨ r = .error .failed) := by
  cases o <;> simp only [answer, Option.some.injEq, Prod.mk.injEq, reduceCtorEq] at h
  case commit locked => exact .inr ⟨locked, rfl, h.2.symm, .inl h.1.symm⟩
  case fail => exact .inl ⟨h.1.symm, h.2.symm⟩
  case lost locked => exact .inr ⟨locked, rfl, h.2.symm, .inr h.1.symm⟩

section Fire

variable {ok : Cfg → Lbl → Prop} {f : Answer (.db q) → Op (List Job)}
  {r : Answer (.db q)} {locked : List ℕ}

section

variable (hr : Reaches P ok c) (h : JobsKept c.shared c.trace)
  (hf : Fires (machine P) c tid o th (.db q) f r s) (hturn : inTurn c tid locked (.db q) = true)
include hr h hf hturn

/-- A job that is finished stays so. -/
theorem jobFinished_stays (hk : c.shared.db.jobFinished k = true) :
    (q.exec locked c.shared.now c.shared.db).2.jobFinished k = true := by
  obtain ⟨j, hj, hstate⟩ := DB.jobFinished_iff.mp hk
  have hstep : JobStep locked c.shared.now c.shared.db k q _ := Query.exec_job h.keyed
  unfold DB.jobFinished
  generalize (q.exec locked c.shared.now c.shared.db).2.memoryJob k = row at hstep
  cases hstep with
  | same => exact hk
  | queue hnone => rw [hj] at hnone; cases hnone
  | lease hj' hdue =>
    rw [not_jobFinished hj' hdue] at hk
    cases hk
  | @finish state retryAfter j' hj' =>
    by_cases hdone : state ≠ .done ∧ state ≠ .failed
    · have hnot := (put_back hr hf hturn hj' hdone).1
      rw [DB.jobFinished, hj', Option.any_some, hnot] at hk
      cases hk
    · simp only [Option.any_some, MemoryJob.finished, MemoryJob.ended, Bool.or_eq_true,
        decide_eq_true_eq]
      tauto

/-- A job after a statement that did not hand it out. -/
theorem JobsKept.job (hj : (q.exec locked c.shared.now c.shared.db).2.memoryJob k = some j) :
    j.Kept (handed k c.trace) := by
  have hstep : JobStep locked c.shared.now c.shared.db k q _ := Query.exec_job h.keyed
  rw [hj] at hstep
  generalize hrow : some j = row at hstep
  cases hstep with
  | same => exact h.jobs k j hrow.symm
  | queue hnone =>
    cases hrow
    rw [h.unknown k hnone]
    exact ⟨Nat.zero_le _, Nat.zero_le _, fun _ => Nat.succ_pos 4⟩
  | lease hj' _ hnext =>
    cases hrow
    exact ⟨(h.jobs k _ hj').counted.trans (Nat.le_succ _), h.taken hturn hj' hnext, nofun⟩
  | @finish state retryAfter j' hj' =>
    cases hrow
    have hkept := h.jobs k j' hj'
    refine ⟨hkept.counted, hkept.bound, fun hqueued => ?_⟩
    have hstate : state = .queued := hqueued
    exact (put_back hr hf hturn hj' (by rw [hstate]; exact ⟨nofun, nofun⟩)).2 hstate

/-- What a statement that takes effect keeps. -/
theorem JobsKept.ran (hs : s = { c.shared with db := (q.exec locked c.shared.now c.shared.db).2 })
    (hresult : r = (q.exec locked c.shared.now c.shared.db).1 ∨ r = .error .failed) :
    JobsKept s (⟨tid, th.job, ⟨.db q, r⟩, c.shared, s⟩ :: c.trace) := by
  -- A job that is handed out was queued or running, and is below the bound.
  have hhands : ∀ k, handsJob k ⟨tid, th.job, ⟨.db q, r⟩, c.shared, s⟩ = true →
      ∃ j duration, c.shared.db.memoryJob k = some j ∧ (j.state = .queued ∨ j.state = .running) ∧
        j.attempts < maxMemoryAttempts ∧ s.db.memoryJob k =
          some (j.leased duration c.shared.now) := by
    intro k hk
    obtain ⟨duration, n, hact⟩ := handsJob_inv hk
    cases hact
    have htaken : (c.shared.db.leaseMemoryJob duration locked c.shared.now).1 = .ok (k, n) :=
      (hresult.resolve_right nofun).symm
    rcases leaseMemoryJob_cases locked c.shared.now duration h.keyed with
      herr | ⟨j, hnext, hj, hdue, heq, hdb⟩
    · rw [herr] at htaken
      cases htaken
    · cases htaken.symm.trans heq
      refine ⟨j, duration, hj, hdue, h.taken hturn hj hnext, ?_⟩
      rw [hs, Query.exec, memoryJob_set hdb fun _ => rfl, if_pos rfl, hj, Option.map_some]
  refine ⟨?_, fun k j hj => ?_, fun k hk => ?_, fun e he k hk => ?_, fun k hk e he => ?_, h.last⟩
  · rw [hs]
    exact Query.exec_keyed_memoryJobs h.keyed
  · rw [handed_cons]
    split_ifs with hk
    · obtain ⟨j₀, duration, hj₀, -, hlt, hafter⟩ := hhands k hk
      cases hj.symm.trans hafter
      exact (h.jobs k j₀ hj₀).leased hlt
    · rw [hs] at hj
      exact h.job hr hf hturn hj
  · have hnot : handsJob k ⟨tid, th.job, ⟨.db q, r⟩, c.shared, s⟩ = false := by
      rw [Bool.eq_false_iff]
      intro hyes
      obtain ⟨j, duration, -, -, -, hafter⟩ := hhands k hyes
      rw [hk] at hafter
      cases hafter
    rw [handed_cons_of_not hnot]
    refine h.unknown k ?_
    have hstep : JobStep locked c.shared.now c.shared.db k q _ := Query.exec_job h.keyed
    rw [hs] at hk
    rw [hk] at hstep
    generalize hrow : none = row at hstep
    cases hstep with
    | same => rfl
    | _ => cases hrow
  · rcases List.mem_cons.mp he with rfl | he
    · exact hk
    · rw [hs]
      exact jobFinished_stays hr h hf hturn (h.finished e he k hk)
  · obtain ⟨j, -, hj, hdue, -, -⟩ := hhands k hk
    rw [Bool.eq_false_iff]
    intro hfinished
    have hnow := h.finished e he k hfinished
    rw [not_jobFinished hj hdue] at hnow
    cases hnow

end

end Fire

theorem JobsKept.init : JobsKept {} [] where
  keyed := List.nodup_nil
  jobs _ _ hj := by cases hj
  unknown _ _ := rfl
  finished _ he := by cases he
  last := trivial

/-- Every run keeps it. -/
theorem Reaches.jobs (h : Reaches P (fun c l => retriesInTurn c l = true) c) :
    JobsKept c.shared c.trace := by
  refine Reach.inv (P := JobsKept) h .init ?_ ?_
  · intro c tid o th i f r s hr hkept hok hf
    by_cases hq : ∃ q, i = .db q
    · obtain ⟨q, rfl⟩ := hq
      rcases answer_locked hf.answer with ⟨hr', hs⟩ | ⟨locked, ho, hs, hresult⟩
      · refine hkept.same (by rw [hs]) rfl fun k => Bool.eq_false_iff.mpr fun hk => ?_
        obtain ⟨duration, n, hact⟩ := handsJob_inv hk
        cases hact
        cases hr'
      · exact hkept.ran hr hf (inTurn_of_fires hok hf ho) hs hresult
    · have hdb : s.db = c.shared.db := by
        rcases answer_db_eq hf.answer with hsame | ⟨q, -, hi, -⟩
        · exact hsame
        · exact absurd ⟨q, hi⟩ hq
      refine hkept.same hdb rfl fun k => Bool.eq_false_iff.mpr fun hk => ?_
      obtain ⟨duration, n, hact⟩ := handsJob_inv hk
      cases hact
      exact hq ⟨_, rfl⟩
  · intro c v s _ hkept _ hv
    have hdb := World.step_db hv
    obtain ⟨hkeyed, hjobs, hunknown, hfinished, hlast⟩ := hkept
    rw [← hdb] at hkeyed
    exact ⟨hkeyed, fun k j hj => hjobs k j (hdb ▸ hj), fun k hk => hunknown k (hdb ▸ hk),
      fun e he k hk => hdb ▸ hfinished e he k hk, hlast⟩

/-- **Memory jobs are bounded.** In every run in which jobs are taken and put back in turn: every
job is handed out at most `maxMemoryAttempts` times, and not after it was marked done or failed. -/
theorem memory_jobs_bounded (h : Reaches P (fun c l => retriesInTurn c l = true) c) (k : UUID) :
    handed k c.trace ≤ maxMemoryAttempts ∧
      ∀ later e past, c.trace = later ++ e :: past → handsJob k e = true →
        ∀ e' ∈ past, e'.after.db.jobFinished k = false := by
  have hkept := h.jobs
  refine ⟨?_, fun later e past heq hk => ?_⟩
  · cases hj : c.shared.db.memoryJob k with
    | none =>
      rw [hkept.unknown k hj]
      exact Nat.zero_le _
    | some j => exact (hkept.jobs k j hj).counted.trans (hkept.jobs k j hj).bound
  · have hlast := hkept.last
    rw [heq] at hlast
    exact hlast.at k hk

/-- Conversation 5 is opened and closed, and its memory job queued. -/
def jobQueued : List Lbl :=
  opening ++ [.request 0 (.closeConversation 5)] ++ commits 4 3

/-- A memory worker is given a job. -/
def taking (tid : ℕ) : List Lbl := [.exec tid (.flag false), .exec tid (.commit [])]

/-- So many hours later another process starts, and its memory worker is given a job. -/
def lateTaking (hours tid : ℕ) : List Lbl := [.env (.clock (hours * hour)), .boot] ++ taking tid

/-- A job that is put back is handed out a second time. -/
theorem memory_jobs_bounded_putBack : ∃ c, Reaches sample (fun c l => retriesInTurn c l = true) c ∧
    handed 5 c.trace = 2 ∧ handed 5 c.trace ≤ maxMemoryAttempts := by
  have hrun : ((machine sample).run retriesInTurn start
    (jobQueued ++ taking 1 ++ [.exec 1 .fail] ++ commits 1 1 ++
      [.env (.clock hour)] ++ taking 5)).any (fun c => handed 5 c.trace = 2) = true := by
    decide +kernel
  obtain ⟨c, hc, htwice⟩ := (Option.any_eq_true ..).mp hrun
  have hreach : Reaches sample (fun c l => retriesInTurn c l = true) c := Reach.of_run .init hc
  exact ⟨c, hreach, of_decide_eq_true htwice, (memory_jobs_bounded hreach 5).1⟩

/-- **Memory jobs are not bounded**: five workers are given a job and let their leases expire, and a
sixth one is given it. And a worker whose lease has expired puts back a job that another worker has
done meanwhile, and the job is handed out again. -/
theorem memory_job_handed_out_again :
    (∃ c, Reachable sample c ∧ handed 5 c.trace = 6) ∧
      ∃ c e past, Reachable sample c ∧ c.trace = e :: past ∧ handsJob 5 e = true ∧
        ∃ e' ∈ past, e'.after.db.jobFinished 5 = true := by
  constructor
  · have hrun :
      ((machine sample).run anything start
        (jobQueued ++ taking 1 ++ lateTaking 1 6 ++ lateTaking 2 9 ++
        lateTaking 3 12 ++ lateTaking 4 15 ++ lateTaking 5 18)).any
          (fun c => handed 5 c.trace = 6) = true := by
      decide +kernel
    obtain ⟨c, hc, hsix⟩ := reachable_of_run hrun
    exact ⟨c, hc, of_decide_eq_true hsix⟩
  · have hrun :
      ((machine sample).run anything start
        (jobQueued ++ taking 1 ++ lateTaking 1 6 ++ commits 6 3 ++
        [.exec 1 .fail] ++ commits 1 1 ++ [.env (.clock (2 * hour))] ++ taking 8)).any (fun c =>
          c.trace.head?.any (handsJob 5) && c.trace.tail.any fun e =>
            e.after.db.jobFinished 5) = true := by
      decide +kernel
    obtain ⟨c, hc, hagain⟩ := reachable_of_run hrun
    obtain ⟨hhead, htail⟩ := Bool.and_eq_true_iff.mp hagain
    obtain ⟨e, he, hhands⟩ := (Option.any_eq_true ..).mp hhead
    obtain ⟨e', he', hdone⟩ := List.any_eq_true.mp htail
    obtain ⟨past, htrace⟩ := List.head?_eq_some_iff.mp he
    rw [htrace] at he'
    exact ⟨c, e, past, hc, htrace, hhands, e', he', hdone⟩

end Jarvis.Orchestrator
