import Jarvis.Interleave.Prog
import Mathlib.Data.List.Induction
import Mathlib.Order.Nat

/-!
# Machines: processes that run programs over shared state

A `Machine` says what shared state is, how it answers one request (`answer`, with an oracle `O`
for what the environment decides: whether a statement fails, what a remote service says), how it
changes by itself (`env`), and which program each job runs. A configuration is the shared state,
the live threads and, as a history variable, the trace of every request answered so far.

* `Machine.step` is one atomic step and `Machine.run` a whole run; both are executable, so that a
  concrete run is checked by evaluation.
* `Reach M ok c₀ c`: some run from `c₀`, all of whose steps meet `ok`, ends in `c`. With
  `ok := fun _ _ => True` these are all reachable configurations.
* A thread runs one job. When its program ends with further jobs (a loop that goes round again, or
  forks), each gets a thread of its own, so the exchanges of a thread are the events of the trace
  with its id (`Threaded.past_eq`).
* `Reach.threaded` lifts a `Prog.Spec` of every job to every thread of every run, and
  `Reach.induct`, `Reach.inv`, `Reach.joint_inv` are the induction rules all invariants go
  through: of configurations, of shared state and trace, and of these and each live thread.
  `Reach.served` is the rule for promises: whatever is demanded, some live thread takes care of it.
-/

namespace Jarvis.Interleave

variable {I : Type} {R : I → Type} {S O J V : Type}

/-- A thread: one job of one process, with what it has exchanged and what it has left to do. -/
structure Thread (I : Type) (R : I → Type) (J : Type) where
  /-- The process it runs in. -/
  proc : ℕ
  /-- The job it runs. -/
  job : J
  /-- Its exchanges so far, newest first. -/
  past : Past I R
  /-- The rest of its program. -/
  prog : Prog I R (List J)

/-- A request that was answered, with the shared state before and after. -/
structure Event (I : Type) (R : I → Type) (S J : Type) where
  /-- The thread that made the request. -/
  tid : ℕ
  /-- Its job. -/
  job : J
  /-- The request and its answer. -/
  act : Σ i, R i
  /-- The shared state the request was answered in. -/
  before : S
  /-- The shared state it left. -/
  after : S

/-- A configuration of a machine. -/
structure Config (I : Type) (R : I → Type) (S J : Type) where
  /-- The shared state. -/
  shared : S
  /-- The live threads. -/
  threads : ℕ → Option (Thread I R J)
  /-- The next thread id. -/
  nextTid : ℕ
  /-- The next process id. -/
  nextProc : ℕ
  /-- The live processes. -/
  live : List ℕ
  /-- Every request answered so far, newest first. -/
  trace : List (Event I R S J)

/-- What a machine is made of. -/
structure Machine (I : Type) (R : I → Type) (S O J V : Type) where
  /-- How shared state answers a request, given what the environment decides (`none`: the
  environment's decision does not fit the request). -/
  answer : (i : I) → O → S → Option (R i × S)
  /-- How shared state changes by itself. -/
  env : V → S → Option S
  /-- The program of a job; it ends with the jobs to go on with. -/
  body : J → Prog I R (List J)
  /-- The jobs that arrive from outside. -/
  isRequest : J → Bool
  /-- The jobs a process starts with, given its id. -/
  daemons : ℕ → List J

/-- The steps of a machine. -/
inductive Label (O J V : Type) where
  /-- A new process starts. -/
  | boot
  /-- A request arrives at a process. -/
  | request (proc : ℕ) (job : J)
  /-- A thread's next request is answered. -/
  | exec (tid : ℕ) (o : O)
  /-- Shared state changes by itself. -/
  | env (v : V)
  /-- A process stops, wherever its threads are. -/
  | stop (proc : ℕ)

namespace Config

/-- Start a thread for a job. -/
def start (c : Config I R S J) (body : J → Prog I R (List J)) (proc : ℕ) (j : J) :
    Config I R S J :=
  { c with
    threads := Function.update c.threads c.nextTid (some ⟨proc, j, [], body j⟩)
    nextTid := c.nextTid + 1 }

/-- Start a thread for each of some jobs. -/
def startAll (c : Config I R S J) (body : J → Prog I R (List J)) (proc : ℕ) (js : List J) :
    Config I R S J :=
  js.foldl (fun d j => d.start body proc j) c

/-- End a thread. -/
def drop (c : Config I R S J) (tid : ℕ) : Config I R S J :=
  { c with threads := Function.update c.threads tid none }

/-- Go on with the rest of a thread's program. -/
def resume (c : Config I R S J) (body : J → Prog I R (List J)) (tid proc : ℕ) (j : J)
    (past : Past I R) : Prog I R (List J) → Config I R S J
  | .ret js => (c.drop tid).startAll body proc js
  | .act i k => { c with threads := Function.update c.threads tid (some ⟨proc, j, past, .act i k⟩) }

/-- Record an answered request. -/
def record (c : Config I R S J) (e : Event I R S J) : Config I R S J :=
  { c with shared := e.after, trace := e :: c.trace }

/-- A new process, with the jobs it starts with. -/
def boot (c : Config I R S J) (body : J → Prog I R (List J)) (jobs : List J) : Config I R S J :=
  { c with nextProc := c.nextProc + 1, live := c.nextProc :: c.live }.startAll body c.nextProc jobs

/-- A process stops: its threads are gone. -/
def stop (c : Config I R S J) (proc : ℕ) : Config I R S J :=
  { c with
    threads := fun tid => (c.threads tid).filter fun th => th.proc ≠ proc
    live := c.live.filter (· ≠ proc) }

/-- The next request of a thread. -/
def next (c : Config I R S J) (tid : ℕ) : Option I :=
  (c.threads tid).bind fun th =>
    match th.prog with
    | .ret _ => none
    | .act i _ => some i

/-- Whether some live thread has had exchanges that meet `p`. -/
def someThread (c : Config I R S J) (p : Past I R → Bool) : Bool :=
  (List.range c.nextTid).any fun tid => (c.threads tid).any fun th => p th.past

/-- The configuration before anything has started. -/
def init (s : S) : Config I R S J := ⟨s, fun _ => none, 0, 0, [], []⟩

end Config

namespace Machine

variable (M : Machine I R S O J V)

/-- The configuration after a thread's request is answered with `r`, leaving `s`. -/
def fire (c : Config I R S J) (tid : ℕ) (th : Thread I R J) (i : I) (k : R i → Prog I R (List J))
    (r : R i) (s : S) : Config I R S J :=
  (c.record ⟨tid, th.job, ⟨i, r⟩, c.shared, s⟩).resume M.body tid th.proc th.job
    (⟨i, r⟩ :: th.past) (k r)

/-- One step. -/
def step (c : Config I R S J) : Label O J V → Option (Config I R S J)
  | .boot => some (c.boot M.body (M.daemons c.nextProc))
  | .request p j => if M.isRequest j = true ∧ p ∈ c.live then some (c.start M.body p j) else none
  | .exec tid o =>
    match c.threads tid with
    | some ⟨p, j, past, .act i k⟩ =>
      (M.answer i o c.shared).map fun rs => M.fire c tid ⟨p, j, past, .act i k⟩ i k rs.1 rs.2
    | _ => none
  | .env v => (M.env v c.shared).map fun s => { c with shared := s }
  | .stop p => some (c.stop p)

/-- A run: one step after another, all of which meet `check`. -/
def run (check : Config I R S J → Label O J V → Bool) (c : Config I R S J) :
    List (Label O J V) → Option (Config I R S J)
  | [] => some c
  | l :: ls => if check c l then (M.step c l).bind fun c' => run check c' ls else none

end Machine

/-- Thread `tid` of `c` makes request `i`, and the answer is `r`, leaving `s`. -/
structure Fires (M : Machine I R S O J V) (c : Config I R S J) (tid : ℕ) (o : O)
    (th : Thread I R J) (i : I) (k : R i → Prog I R (List J)) (r : R i) (s : S) : Prop where
  /-- The thread is live. -/
  thread : c.threads tid = some th
  /-- Its next request is `i`. -/
  prog : th.prog = .act i k
  /-- The answer. -/
  answer : M.answer i o c.shared = some (r, s)

variable {M : Machine I R S O J V} {ok : Config I R S J → Label O J V → Prop}
  {c₀ c c' : Config I R S J}
  {tid tid' : ℕ} {o : O} {th th' : Thread I R J} {i : I} {k : R i → Prog I R (List J)}
    {r : R i} {s s₀ : S}

theorem Fires.next (h : Fires M c tid o th i k r s) : c.next tid = some i := by
  rw [Config.next, h.thread, Option.bind_some, h.prog]

/-- Everything a step can be. -/
theorem Machine.step_cases (h : M.step c l = some c') :
    (l = .boot ∧ c' = c.boot M.body (M.daemons c.nextProc)) ∨
    (∃ p j, l = .request p j ∧ M.isRequest j = true ∧ p ∈ c.live ∧ c' = c.start M.body p j) ∨
    (∃ tid o th i k r s, l = .exec tid o ∧ Fires M c tid o th i k r s ∧
      c' = M.fire c tid th i k r s) ∨
    (∃ v s, l = .env v ∧ M.env v c.shared = some s ∧ c' = { c with shared := s }) ∨
    (∃ p, l = .stop p ∧ c' = c.stop p) := by
  cases l with
  | boot => exact .inl ⟨rfl, (Option.some.inj h).symm⟩
  | request p j =>
    simp only [Machine.step] at h
    split_ifs at h with hp
    exact .inr (.inl ⟨p, j, rfl, hp.1, hp.2, (Option.some.inj h).symm⟩)
  | exec tid o =>
    simp only [Machine.step] at h
    split at h
    · rename_i p j past i k hth
      obtain ⟨⟨r, s⟩, ha, rfl⟩ := Option.map_eq_some_iff.mp h
      exact .inr (.inr (.inl ⟨tid, o, _, i, k, r, s, rfl, ⟨hth, rfl, ha⟩, rfl⟩))
    · cases h
  | env v =>
    obtain ⟨s, hs, rfl⟩ := Option.map_eq_some_iff.mp h
    exact .inr (.inr (.inr (.inl ⟨v, s, rfl, hs, rfl⟩)))
  | stop p => exact .inr (.inr (.inr (.inr ⟨p, rfl, (Option.some.inj h).symm⟩)))

/-- The configurations reached from `c₀` by runs all of whose steps meet `ok`. -/
inductive Reach (M : Machine I R S O J V) (ok : Config I R S J → Label O J V → Prop)
    (c₀ : Config I R S J) : Config I R S J → Prop
  /-- The empty run. -/
  | init : Reach M ok c₀ c₀
  /-- One more step. -/
  | step {c c' : Config I R S J} {l : Label O J V} :
      Reach M ok c₀ c → ok c l → M.step c l = some c' → Reach M ok c₀ c'

namespace Reach

variable {ok' : Config I R S J → Label O J V → Prop}

/-- A condition on steps may be replaced by another that follows from it in the configurations on
the way. -/
theorem replace (h : Reach M ok c₀ c) (hok : ∀ c l, Reach M ok' c₀ c → ok c l → ok' c l) :
    Reach M ok' c₀ c := by
  induction h with
  | init => exact .init
  | step _ hl hs ih => exact .step ih (hok _ _ ih hl) hs

/-- A condition on steps may be dropped. -/
theorem weaken (h : Reach M ok c₀ c) (hok : ∀ c l, ok c l → ok' c l) : Reach M ok' c₀ c :=
  h.replace fun c l _ => hok c l

/-- Runs can be put together. -/
theorem trans (h : Reach M ok c₀ c) (h' : Reach M ok c c') : Reach M ok c₀ c' := by
  induction h' with
  | init => exact h
  | step _ hl hs ih => exact .step ih hl hs

/-- An executable run is a run. -/
theorem of_run {check : Config I R S J → Label O J V → Bool}
    (h : Reach M (fun c l => check c l = true) c₀ c) (hr : M.run check c ls = some c') :
    Reach M (fun c l => check c l = true) c₀ c' := by
  induction ls generalizing c with
  | nil => cases hr; exact h
  | cons l ls ih =>
    simp only [Machine.run] at hr
    split_ifs at hr with hl
    obtain ⟨d, hd, hr⟩ := Option.bind_eq_some_iff.mp hr
    exact ih (.step h hl hd) hr

/-- **Induction over runs**, one case for each kind of step. -/
theorem induct {P : Config I R S J → Prop} (h : Reach M ok c₀ c) (init : P c₀)
    (boot : ∀ c, Reach M ok c₀ c → P c → P (c.boot M.body (M.daemons c.nextProc)))
    (request : ∀ c p j, Reach M ok c₀ c → P c → M.isRequest j = true → p ∈ c.live →
      P (c.start M.body p j))
    (fire : ∀ c tid o th i k r s, Reach M ok c₀ c → P c → ok c (.exec tid o) →
      Fires M c tid o th i k r s → P (M.fire c tid th i k r s))
    (env : ∀ c v s, Reach M ok c₀ c → P c → ok c (.env v) → M.env v c.shared = some s →
      P { c with shared := s })
    (stop : ∀ c p, Reach M ok c₀ c → P c → ok c (.stop p) → P (c.stop p)) : P c := by
  induction h with
  | init => exact init
  | @step c c' l hc hl hs ih =>
    rcases Machine.step_cases hs with ⟨rfl, rfl⟩ | ⟨p, j, rfl, hj, hp, rfl⟩ |
      ⟨tid, o, th, i, k, r, s, rfl, hf, rfl⟩ | ⟨v, s, rfl, hv, rfl⟩ | ⟨p, rfl, rfl⟩
    · exact boot _ hc ih
    · exact request _ _ _ hc ih hj hp
    · exact fire _ _ _ _ _ _ _ _ hc ih hl hf
    · exact env _ _ _ hc ih hl hv
    · exact stop _ _ hc ih hl

end Reach

/-! ### What steps leave alone -/

namespace Config

variable (c : Config I R S J) (body : J → Prog I R (List J))

@[simp] theorem start_shared (p : ℕ) (j : J) : (c.start body p j).shared = c.shared := rfl

@[simp] theorem start_trace (p : ℕ) (j : J) : (c.start body p j).trace = c.trace := rfl

@[simp] theorem stop_shared (p : ℕ) : (c.stop p).shared = c.shared := rfl

@[simp] theorem stop_trace (p : ℕ) : (c.stop p).trace = c.trace := rfl

/-- Starting jobs keeps whatever starting one job keeps. -/
theorem startAll_induct {P : Config I R S J → Prop} (h : P c)
    (start : ∀ d, ∀ j ∈ js, P d → P (d.start body p j)) : P (c.startAll body p js) := by
  induction js using List.reverseRecOn with
  | nil => exact h
  | append_singleton js j ih =>
    rw [startAll, List.foldl_append]
    exact start _ j (by simp) (ih fun d j hj => start d j (List.mem_append_left _ hj))

@[simp] theorem startAll_shared (p : ℕ) (js : List J) :
    (c.startAll body p js).shared = c.shared :=
  c.startAll_induct body (P := fun d => d.shared = c.shared) rfl fun _ _ _ h => h

@[simp] theorem startAll_trace (p : ℕ) (js : List J) : (c.startAll body p js).trace = c.trace :=
  c.startAll_induct body (P := fun d => d.trace = c.trace) rfl fun _ _ _ h => h

@[simp] theorem startAll_live (p : ℕ) (js : List J) : (c.startAll body p js).live = c.live :=
  c.startAll_induct body (P := fun d => d.live = c.live) rfl fun _ _ _ h => h

@[simp] theorem boot_shared (jobs : List J) : (c.boot body jobs).shared = c.shared := by simp [boot]

@[simp] theorem boot_trace (jobs : List J) : (c.boot body jobs).trace = c.trace := by simp [boot]

@[simp] theorem resume_shared (tid p : ℕ) (j : J) (past : Past I R) (q : Prog I R (List J)) :
    (c.resume body tid p j past q).shared = c.shared := by
  cases q <;> simp [resume, drop]

@[simp] theorem resume_trace (tid p : ℕ) (j : J) (past : Past I R) (q : Prog I R (List J)) :
    (c.resume body tid p j past q).trace = c.trace := by
  cases q <;> simp [resume, drop]

end Config

@[simp] theorem Machine.fire_shared : (M.fire c tid th i k r s).shared = s := by
  simp [Machine.fire, Config.record]

@[simp] theorem Machine.fire_trace : (M.fire c tid th i k r s).trace =
    ⟨tid, th.job, ⟨i, r⟩, c.shared, s⟩ :: c.trace := by
  simp [Machine.fire, Config.record]

@[simp] theorem Machine.fire_live : (M.fire c tid th i k r s).live = c.live := by
  unfold Machine.fire
  cases k r <;> simp [Config.resume, Config.record, Config.drop]

/-- **Invariants of shared state and trace.** Starting and stopping threads changes neither. -/
theorem Reach.inv {P : S → List (Event I R S J) → Prop} (h : Reach M ok c₀ c)
    (init : P c₀.shared c₀.trace)
    (fire : ∀ c tid o th i k r s, Reach M ok c₀ c → P c.shared c.trace → ok c (.exec tid o) →
      Fires M c tid o th i k r s → P s (⟨tid, th.job, ⟨i, r⟩, c.shared, s⟩ :: c.trace))
    (env : ∀ c v s, Reach M ok c₀ c → P c.shared c.trace → ok c (.env v) →
      M.env v c.shared = some s → P s c.trace) : P c.shared c.trace := by
  refine h.induct (P := fun c => P c.shared c.trace) init ?_ ?_ ?_ env ?_
  · intro c _ hP; simpa using hP
  · intro c p j _ hP _ _; simpa using hP
  · intro c tid o th i k r s hr hP hok hf; simpa using fire c tid o th i k r s hr hP hok hf
  · intro c p _ hP _; simpa using hP

/-! ### Threads and the trace -/

/-- The exchanges of a thread, read off the trace. -/
def pastOf (tid : ℕ) (tr : List (Event I R S J)) : Past I R :=
  (tr.filter fun e => e.tid = tid).map Event.act

/-- What is true of every thread, given the trace and the next thread id. -/
structure Threaded (Φ : J → Past I R → I → Prop) (Q : J → Past I R → List J → Prop)
    (c : Config I R S J) : Prop where
  /-- Events come from threads that were started. -/
  trace_lt : ∀ e ∈ c.trace, e.tid < c.nextTid
  /-- Threads have ids below the next one. -/
  tid_lt : ∀ tid th, c.threads tid = some th → tid < c.nextTid
  /-- A thread's exchanges are its events. -/
  past_eq : ∀ tid th, c.threads tid = some th → th.past = pastOf tid c.trace
  /-- A thread's events carry its job. -/
  job_eq : ∀ tid th, c.threads tid = some th → ∀ e ∈ c.trace, e.tid = tid → e.job = th.job
  /-- A thread meets the specification of its job. -/
  spec : ∀ tid th, c.threads tid = some th → th.prog.Spec (Φ th.job) (Q th.job) th.past

namespace Config

variable (c : Config I R S J) (body : J → Prog I R (List J))

variable {p : ℕ}

/-- A thread after `start` is the new one or was there before. -/
theorem start_threads (h : (c.start body p j).threads tid = some th) :
    (tid = c.nextTid ∧ th = ⟨p, j, [], body j⟩) ∨ (tid ≠ c.nextTid ∧ c.threads tid = some th) := by
  by_cases ht : tid = c.nextTid
  · subst ht
    simp only [start, Function.update_self] at h
    exact .inl ⟨rfl, (Option.some.inj h).symm⟩
  · simp only [start, Function.update_of_ne ht] at h
    exact .inr ⟨ht, h⟩

/-- A thread after `startAll` is a new one, for one of the jobs, or was there before. -/
theorem startAll_threads (h : (c.startAll body p js).threads tid = some th) :
    (c.nextTid ≤ tid ∧ ∃ j ∈ js, th = ⟨p, j, [], body j⟩) ∨ c.threads tid = some th := by
  revert tid th
  refine (c.startAll_induct body (P := fun d => c.nextTid ≤ d.nextTid ∧ ∀ {tid th},
    d.threads tid = some th → (c.nextTid ≤ tid ∧ ∃ j ∈ js, th = ⟨p, j, [], body j⟩) ∨
      c.threads tid = some th) ⟨le_rfl, .inr⟩ ?_).2
  intro d j hj hd
  refine ⟨Nat.le_succ_of_le hd.1, fun {tid th} h => ?_⟩
  rcases d.start_threads body h with ⟨rfl, rfl⟩ | ⟨-, h⟩
  · exact .inl ⟨hd.1, j, hj, rfl⟩
  · exact hd.2 h

/-- A thread after `drop` was there before and is another one. -/
theorem drop_threads (h : (c.drop tid).threads tid' = some th) :
    tid' ≠ tid ∧ c.threads tid' = some th := by
  by_cases ht : tid' = tid
  · subst ht; simp [drop] at h
  · exact ⟨ht, by simpa only [drop, Function.update_of_ne ht] using h⟩

/-- A thread after a process stopped was there before and belongs to another process. -/
theorem stop_threads (h : (c.stop p).threads tid = some th) :
    c.threads tid = some th ∧ th.proc ≠ p := by
  have h' := Option.filter_eq_some_iff.mp h
  exact ⟨h'.1, by simpa using h'.2⟩

end Config

/-- After a request was answered, a thread is another thread, or the same one further on, or runs
one of the jobs the program ended with. -/
theorem Machine.fire_threads (h : (M.fire c tid th i k r s).threads tid' = some th') :
    (tid' ≠ tid ∧ c.threads tid' = some th') ∨
    (tid' = tid ∧ (∀ js, k r ≠ .ret js) ∧ th' = ⟨th.proc, th.job, ⟨i, r⟩ :: th.past, k r⟩) ∨
    (c.nextTid ≤ tid' ∧ ∃ js, k r = .ret js ∧ ∃ j ∈ js, th' = ⟨th.proc, j, [], M.body j⟩) := by
  unfold Machine.fire at h
  rcases hk : k r with js | ⟨i', k'⟩ <;> rw [hk] at h
  · rcases Config.startAll_threads _ _ h with ⟨hle, j, hj, rfl⟩ | h
    · exact .inr (.inr ⟨hle, js, rfl, j, hj, rfl⟩)
    · exact .inl (Config.drop_threads _ h)
  · by_cases ht : tid' = tid
    · subst ht
      simp only [Config.resume, Function.update_self] at h
      exact .inr (.inl ⟨rfl, by simp, (Option.some.inj h).symm⟩)
    · simp only [Config.resume, Function.update_of_ne ht] at h
      exact .inl ⟨ht, h⟩

/-- **Invariants of shared state and of what live threads have exchanged**, from any configuration
on: a new thread has exchanged nothing. -/
theorem Reach.exchanges {G : S → Prop} {B : (Σ i, R i) → Prop} (h : Reach M ok c₀ c)
    (init : G c₀.shared) (threads : ∀ tid th, c₀.threads tid = some th → ∀ x ∈ th.past, B x)
    (fire : ∀ c tid o th i k r s, Reach M ok c₀ c → Fires M c tid o th i k r s → G c.shared →
      (∀ x ∈ th.past, B x) → G s ∧ B ⟨i, r⟩)
    (env : ∀ s v s', M.env v s = some s' → G s → G s') :
    G c.shared ∧ ∀ tid th, c.threads tid = some th → ∀ x ∈ th.past, B x := by
  refine h.induct (P := fun c => G c.shared ∧ ∀ tid th, c.threads tid = some th →
    ∀ x ∈ th.past, B x)
    ⟨init, threads⟩ ?_ ?_ ?_ ?_ ?_
  · rintro c - ⟨hG, hB⟩
    rw [Config.boot_shared]
    refine ⟨hG, fun tid th hth x hx => ?_⟩
    rcases Config.startAll_threads _ _ hth with ⟨-, j, -, rfl⟩ | hth
    · cases hx
    · exact hB tid th hth x hx
  · rintro c p j - ⟨hG, hB⟩ - -
    refine ⟨hG, fun tid th hth x hx => ?_⟩
    rcases Config.start_threads _ _ hth with ⟨-, rfl⟩ | ⟨-, hth⟩
    · cases hx
    · exact hB tid th hth x hx
  · rintro c tid o th i k r s hr ⟨hG, hB⟩ - hf
    obtain ⟨hG', hx'⟩ := fire c tid o th i k r s hr hf hG (hB tid th hf.thread)
    rw [Machine.fire_shared]
    refine ⟨hG', fun tid' th' hth' x hx => ?_⟩
    rcases Machine.fire_threads hth' with ⟨-, hth'⟩ | ⟨-, -, rfl⟩ | ⟨-, js, -, j, -, rfl⟩
    · exact hB tid' th' hth' x hx
    · rcases List.mem_cons.mp hx with rfl | hx
      · exact hx'
      · exact hB tid th hf.thread x hx
    · cases hx
  · rintro c v s - ⟨hG, hB⟩ - hv
    exact ⟨env _ v s hv hG, hB⟩
  · rintro c p - ⟨hG, hB⟩ -
    exact ⟨hG, fun tid th hth => hB tid th (c.stop_threads hth).1⟩

/-- Starting jobs leaves the threads there are. -/
theorem Config.startAll_thread (body : J → Prog I R (List J)) (ht : tid < c.nextTid)
    (h : c.threads tid = some th) : (c.startAll body p js).threads tid = some th := by
  refine (c.startAll_induct body (P := fun d => tid < d.nextTid ∧ d.threads tid = some th) ⟨ht, h⟩
    fun d j _ hd => ⟨Nat.lt_succ_of_lt hd.1, ?_⟩).2
  simp only [start, Function.update_of_ne hd.1.ne]
  exact hd.2

/-- Answering a request leaves the other threads alone. -/
theorem Machine.fire_thread_other (hne : tid' ≠ tid) (ht : tid' < c.nextTid)
    (h : c.threads tid' = some th') : (M.fire c tid th i k r s).threads tid' = some th' := by
  unfold Machine.fire
  rcases k r with js | ⟨i', k'⟩
  · refine Config.startAll_thread _ ht ?_
    simpa only [Config.drop, Config.record, Function.update_of_ne hne] using h
  · simpa only [Config.resume, Config.record, Function.update_of_ne hne] using h

/-- The thread itself goes on with its program, unless that has ended. -/
theorem Machine.fire_thread_self :
    (∃ js, k r = .ret js) ∨ (M.fire c tid th i k r s).threads tid =
      some ⟨th.proc, th.job, ⟨i, r⟩ :: th.past, k r⟩ := by
  unfold Machine.fire
  rcases k r with js | ⟨i', k'⟩
  · exact .inl ⟨js, rfl⟩
  · exact .inr (by simp only [Config.resume, Function.update_self])

variable {tr : List (Event I R S J)} {e : Event I R S J}

theorem pastOf_eq_nil (h : ∀ e ∈ tr, e.tid ≠ tid) :
    pastOf tid tr = [] := by
  simp only [pastOf, List.map_eq_nil_iff, List.filter_eq_nil_iff, decide_eq_true_eq]
  exact h

theorem pastOf_cons_self :
    pastOf e.tid (e :: tr) = e.act :: pastOf e.tid tr := by simp [pastOf]

theorem pastOf_cons_of_ne (h : e.tid ≠ tid) :
    pastOf tid (e :: tr) = pastOf tid tr := by simp [pastOf, h]

/-- An exchange of a thread is an event of the trace. -/
theorem mem_pastOf :
    a ∈ pastOf tid tr ↔ ∃ e ∈ tr, e.tid = tid ∧ e.act = a := by
  simp [pastOf, and_assoc]

variable {Φ : J → Past I R → I → Prop} {Q : J → Past I R → List J → Prop}

/-- A live thread that meets `p` is some thread that does. -/
theorem Threaded.someThread (h : Threaded Φ Q c) {p : Past I R → Bool}
    (hth : c.threads tid = some th) (hp : p th.past = true) : c.someThread p = true := by
  refine List.any_eq_true.mpr ⟨tid, List.mem_range.mpr (h.tid_lt tid th hth), ?_⟩
  rw [hth]
  exact hp

/-- Threads run on live processes. -/
theorem Reach.proc_live (h : Reach M ok (.init s₀) c) (hth : c.threads tid = some th) :
    th.proc ∈ c.live := by
  revert tid th
  refine h.induct (P := fun c => ∀ {tid th}, c.threads tid = some th → th.proc ∈ c.live)
    ?_ ?_ ?_ ?_ ?_ ?_
  · simp [Config.init]
  · intro c _ hc tid th hth
    rw [Config.boot, Config.startAll_live]
    rcases Config.startAll_threads _ _ hth with ⟨-, j, -, rfl⟩ | hth
    · exact List.mem_cons_self ..
    · exact List.mem_cons_of_mem _ (hc hth)
  · intro c p j _ hc _ hp tid th hth
    rcases Config.start_threads _ _ hth with ⟨-, rfl⟩ | ⟨-, hth⟩
    · exact hp
    · exact hc hth
  · intro c tid o th i k r s _ hc _ hf tid' th' hth'
    rw [Machine.fire_live]
    rcases Machine.fire_threads hth' with ⟨-, hth'⟩ | ⟨-, -, rfl⟩ | ⟨-, js, -, j, -, rfl⟩
    · exact hc hth'
    · exact (hc hf.thread :)
    · exact (hc hf.thread :)
  · exact fun c v s _ hc _ _ tid th hth => hc hth
  · intro c p _ hc _ tid th hth
    obtain ⟨hth, hp⟩ := c.stop_threads hth
    exact List.mem_filter.mpr ⟨hc hth, by simpa using hp⟩

namespace Threaded

/-- What is to be shown of each thread. -/
theorem of_each (trace_lt : ∀ e ∈ c.trace, e.tid < c.nextTid)
    (each : ∀ tid th, c.threads tid = some th → tid < c.nextTid ∧ th.past = pastOf tid c.trace ∧
      (∀ e ∈ c.trace, e.tid = tid → e.job = th.job) ∧ th.prog.Spec (Φ th.job) (Q th.job) th.past) :
    Threaded Φ Q c :=
  ⟨trace_lt, fun tid th h => (each tid th h).1, fun tid th h => (each tid th h).2.1,
    fun tid th h => (each tid th h).2.2.1, fun tid th h => (each tid th h).2.2.2⟩

/-- Fewer threads are in order as well. -/
theorem mono (h : Threaded Φ Q c) (htrace : c'.trace = c.trace) (hnext : c'.nextTid = c.nextTid)
    (hsub : ∀ tid th, c'.threads tid = some th → c.threads tid = some th) : Threaded Φ Q c' := by
  refine .of_each (by rw [htrace, hnext]; exact h.trace_lt) fun tid th hth => ?_
  have hth := hsub tid th hth
  rw [htrace, hnext]
  exact ⟨h.tid_lt _ _ hth, h.past_eq _ _ hth, h.job_eq _ _ hth, h.spec _ _ hth⟩

/-- Starting a job keeps the threads in order. -/
theorem start (hbody : ∀ j, (M.body j).Spec (Φ j) (Q j) []) (h : Threaded Φ Q c) (p : ℕ) (j : J) :
    Threaded Φ Q (c.start M.body p j) := by
  refine .of_each (fun e he => Nat.lt_succ_of_lt (h.trace_lt e he)) fun tid th hth => ?_
  rcases Config.start_threads _ _ hth with ⟨rfl, rfl⟩ | ⟨-, hth⟩
  · refine ⟨Nat.lt_succ_self _, ?_, fun e he het => absurd het (h.trace_lt e he).ne, hbody j⟩
    exact (pastOf_eq_nil fun e he => (h.trace_lt e he).ne).symm
  · exact ⟨Nat.lt_succ_of_lt (h.tid_lt _ _ hth), h.past_eq _ _ hth,
      h.job_eq _ _ hth, h.spec _ _ hth⟩

/-- Starting jobs keeps the threads in order. -/
theorem startAll (hbody : ∀ j, (M.body j).Spec (Φ j) (Q j) []) (h : Threaded Φ Q c) (p : ℕ)
    (js : List J) : Threaded Φ Q (c.startAll M.body p js) :=
  c.startAll_induct M.body h fun _ j _ hd => hd.start hbody p j

/-- Answering a request, and going no further, keeps the threads in order. -/
theorem record (h : Threaded Φ Q c) (hf : Fires M c tid o th i k r s) (q : Prog I R (List J))
    (hq : q.Spec (Φ th.job) (Q th.job) (⟨i, r⟩ :: th.past)) :
    Threaded Φ Q { c.record ⟨tid, th.job, ⟨i, r⟩, c.shared, s⟩ with
      threads := Function.update c.threads tid
        (some ⟨th.proc, th.job, ⟨i, r⟩ :: th.past, q⟩) } := by
  have hlt := h.tid_lt _ _ hf.thread
  refine .of_each (List.forall_mem_cons.mpr ⟨hlt, h.trace_lt⟩) fun tid' th' hth' => ?_
  by_cases ht : tid' = tid
  · subst ht
    simp only [Function.update_self, Option.some.injEq] at hth'
    subst hth'
    refine ⟨hlt, ?_, List.forall_mem_cons.mpr ⟨fun _ => rfl, h.job_eq _ th hf.thread⟩, hq⟩
    simp only [h.past_eq _ _ hf.thread]
    exact (pastOf_cons_self (e := ⟨tid', th.job, ⟨i, r⟩, c.shared, s⟩)).symm
  · simp only [Function.update_of_ne ht] at hth'
    refine ⟨h.tid_lt _ _ hth', (h.past_eq _ _ hth').trans
      (pastOf_cons_of_ne fun he => ht he.symm).symm,
      List.forall_mem_cons.mpr ⟨fun het => absurd het.symm ht, h.job_eq _ _ hth'⟩, h.spec _ _ hth'⟩

/-- Ending a thread keeps the others in order. -/
theorem drop (h : Threaded Φ Q c) (tid : ℕ) : Threaded Φ Q (c.drop tid) :=
  h.mono rfl rfl fun _ _ hth => (c.drop_threads hth).2

/-- Answering a request keeps the threads in order. -/
theorem fire (hbody : ∀ j, (M.body j).Spec (Φ j) (Q j) []) (h : Threaded Φ Q c)
    (hf : Fires M c tid o th i k r s) : Threaded Φ Q (M.fire c tid th i k r s) := by
  have hs := h.spec _ _ hf.thread
  rw [hf.prog] at hs
  have hr := h.record hf (k r) (hs.2 r)
  unfold Machine.fire
  rcases hk : k r with js | ⟨i', k'⟩
  · -- The thread is gone either way, so its last state does not matter.
    have hd := (hr.drop tid).startAll hbody th.proc js
    simpa only [Config.drop, Config.resume, Config.record, Function.update_idem] using hd
  · rw [hk] at hr
    exact hr

end Threaded

namespace Reach

section

variable (hbody : ∀ j, (M.body j).Spec (Φ j) (Q j) []) (h : Reach M ok (.init s₀) c)
include hbody h

/-- **Specifications hold of every thread of every run.** -/
theorem threaded : Threaded Φ Q c := by
  refine h.induct ?_ ?_ ?_ ?_ ?_ ?_
  · constructor <;> simp [Config.init]
  · intro c _ hc
    have hc' : Threaded Φ Q { c with nextProc := c.nextProc + 1, live := c.nextProc :: c.live } :=
      hc.mono rfl rfl fun _ _ hth => hth
    exact hc'.startAll hbody _ _
  · exact fun c p j _ hc _ _ => hc.start hbody p j
  · exact fun c tid o th i k r s _ hc _ hf => hc.fire hbody hf
  · exact fun c v s _ hc _ _ => hc.mono rfl rfl fun _ _ hth => hth
  · exact fun c p _ hc _ => hc.mono rfl rfl fun _ _ hth => (c.stop_threads hth).1

/-- A request is made only when its job's specification allows it. -/
theorem allowed (hf : Fires M c tid o th i k r s) : Φ th.job (pastOf tid c.trace) i := by
  have ht := h.threaded hbody
  have hs := ht.spec _ _ hf.thread
  rw [hf.prog, ht.past_eq _ _ hf.thread] at hs
  exact hs.1

/-- A thread that ends meets the postcondition of its job. -/
theorem ended (hf : Fires M c tid o th i k r s) (hjs : k r = .ret js) :
    Q th.job (⟨i, r⟩ :: th.past) js := by
  have hs := (h.threaded hbody).spec _ _ hf.thread
  rw [hf.prog] at hs
  have hq := hs.2 r
  rw [hjs] at hq
  exact hq

/-- **Invariants of shared state and threads.** `G` of shared state and trace, and `L` of every live
thread, if `L` holds of every thread when it starts, and both are kept by every request and by the
environment. -/
theorem joint_inv {G : S → List (Event I R S J) → Prop}
    {L : S → List (Event I R S J) → ℕ → J → Past I R → Prop} (init : G s₀ [])
    (request : ∀ s tr tid j, G s tr → M.isRequest j = true → L s tr tid j [])
    (daemon : ∀ s tr p tid j, G s tr → j ∈ M.daemons p → L s tr tid j [])
    (fire : ∀ c tid o th i k r s, Reach M ok (.init s₀) c → ok c (.exec tid o) →
      Fires M c tid o th i k r s → G c.shared c.trace → L c.shared c.trace tid th.job th.past →
      G s (⟨tid, th.job, ⟨i, r⟩, c.shared, s⟩ :: c.trace))
    (next : ∀ c tid o th i k r s js, Reach M ok (.init s₀) c → ok c (.exec tid o) →
      Fires M c tid o th i k r s → G c.shared c.trace → L c.shared c.trace tid th.job th.past →
      Q th.job (⟨i, r⟩ :: th.past) js → ∀ tid', ∀ j ∈ js,
      L s (⟨tid, th.job, ⟨i, r⟩, c.shared, s⟩ :: c.trace) tid' j [])
    (own : ∀ c tid o th i k r s, Reach M ok (.init s₀) c → ok c (.exec tid o) →
      Fires M c tid o th i k r s → G c.shared c.trace → L c.shared c.trace tid th.job th.past →
      L s (⟨tid, th.job, ⟨i, r⟩, c.shared, s⟩ :: c.trace) tid th.job (⟨i, r⟩ :: th.past))
    (other : ∀ c tid o th i k r s tid' th', Reach M ok (.init s₀) c → ok c (.exec tid o) →
      Fires M c tid o th i k r s → G c.shared c.trace → L c.shared c.trace tid th.job th.past →
      tid' ≠ tid → c.threads tid' = some th' → L c.shared c.trace tid' th'.job th'.past →
      L s (⟨tid, th.job, ⟨i, r⟩, c.shared, s⟩ :: c.trace) tid' th'.job th'.past)
    (env : ∀ c v s, ok c (.env v) → M.env v c.shared = some s → G c.shared c.trace → G s c.trace ∧
      ∀ tid j past, L c.shared c.trace tid j past → L s c.trace tid j past) :
    G c.shared c.trace ∧
      ∀ tid th, c.threads tid = some th → L c.shared c.trace tid th.job th.past := by
  refine h.induct (P := fun c => G c.shared c.trace ∧ ∀ tid th, c.threads tid = some th →
    L c.shared c.trace tid th.job th.past) ?_ ?_ ?_ ?_ ?_ ?_
  · exact ⟨init, by simp [Config.init]⟩
  · rintro c - ⟨hG, hL⟩
    rw [Config.boot_trace, Config.boot_shared]
    refine ⟨hG, fun tid th hth => ?_⟩
    rcases Config.startAll_threads _ _ hth with ⟨-, j, hj, rfl⟩ | hth
    · exact daemon _ _ _ _ _ hG hj
    · exact hL _ _ hth
  · rintro c p j - ⟨hG, hL⟩ hj -
    refine ⟨hG, fun tid th hth => ?_⟩
    rcases Config.start_threads _ _ hth with ⟨-, rfl⟩ | ⟨-, hth⟩
    · exact request _ _ _ _ hG hj
    · exact hL _ _ hth
  · rintro c tid o th i k r s hr ⟨hG, hL⟩ hok hf
    have hth := hL _ _ hf.thread
    rw [Machine.fire_trace, Machine.fire_shared]
    refine ⟨fire _ _ _ _ _ _ _ _ hr hok hf hG hth, fun tid' th' hth' => ?_⟩
    rcases Machine.fire_threads hth' with ⟨hne, hth'⟩ | ⟨rfl, -, rfl⟩ | ⟨-, js, hjs, j, hj, rfl⟩
    · exact other _ _ _ _ _ _ _ _ _ _ hr hok hf hG hth hne hth' (hL _ _ hth')
    · exact own _ _ _ _ _ _ _ _ hr hok hf hG hth
    · exact next _ _ _ _ _ _ _ _ _ hr hok hf hG hth (hr.ended hbody hf hjs) _ j hj
  · rintro c v s - ⟨hG, hL⟩ hok hv
    obtain ⟨hG', hL'⟩ := env c v s hok hv hG
    exact ⟨hG', fun tid th hth => hL' _ _ _ (hL _ _ hth)⟩
  · exact fun c p _ hc _ => ⟨hc.1, fun tid th hth => hc.2 _ _ (c.stop_threads hth).1⟩

/-- **Threads that take care.** Whatever is demanded of the shared state (`D`), some live thread
takes care of it (`L`): if no thread ends while it takes care of something, if a demand is new only
when the thread that made the request takes care of it, if a thread goes on taking care of what is
still demanded, and if no process stops with a thread that takes care of a demand. -/
theorem served {X : Type} {D : S → X → Prop} {L : J → Past I R → X → Prop} (init : ∀ x, ¬ D s₀ x)
    (ends : ∀ j past js x, Q j past js → ¬ L j past x)
    (fire : ∀ c tid o th i k r s, Reach M ok (.init s₀) c → ok c (.exec tid o) →
      Fires M c tid o th i k r s → ∀ x, D s x →
      (D c.shared x ∧ (L th.job th.past x → L th.job (⟨i, r⟩ :: th.past) x)) ∨
      L th.job (⟨i, r⟩ :: th.past) x)
    (env : ∀ c v s x, ok c (.env v) → M.env v c.shared = some s → D s x → D c.shared x)
    (stop : ∀ c p tid th x, ok c (.stop p) → c.threads tid = some th → th.proc = p → D c.shared x →
      ¬ L th.job th.past x) :
    ∀ x, D c.shared x → ∃ tid th, c.threads tid = some th ∧ L th.job th.past x := by
  refine h.induct (P := fun c => ∀ x, D c.shared x → ∃ tid th, c.threads tid = some th ∧
    L th.job th.past x) (fun x hx => absurd hx (init x)) ?_ ?_ ?_ ?_ ?_
  · intro c hr hc x hx
    rw [Config.boot_shared] at hx
    obtain ⟨tid, th, hth, hL⟩ := hc x hx
    exact ⟨tid, th, Config.startAll_thread _ ((hr.threaded hbody).tid_lt _ _ hth) hth, hL⟩
  · intro c p j hr hc _ _ x hx
    obtain ⟨tid, th, hth, hL⟩ := hc x hx
    have hkeep : (c.startAll M.body p [j]).threads tid = some th :=
      Config.startAll_thread _ ((hr.threaded hbody).tid_lt _ _ hth) hth
    exact ⟨tid, th, hkeep, hL⟩
  · intro c tid o th i k r s hr hc hok hf x hx
    rw [Machine.fire_shared] at hx
    -- A thread that takes care of something after its request has not ended with it.
    have own : L th.job (⟨i, r⟩ :: th.past) x → ∃ tid' th',
        (M.fire c tid th i k r s).threads tid' = some th' ∧ L th'.job th'.past x := by
      intro hL
      rcases Machine.fire_thread_self with ⟨js, hjs⟩ | hth
      · exact absurd hL (ends _ _ _ x (hr.ended hbody hf hjs))
      · exact ⟨tid, _, hth, hL⟩
    rcases fire c tid o th i k r s hr hok hf x hx with ⟨hd, hkeep⟩ | hL
    · obtain ⟨tid', th', hth', hL⟩ := hc x hd
      by_cases ht : tid' = tid
      · subst ht
        obtain rfl := Option.some.inj (hth'.symm.trans hf.thread)
        exact own (hkeep hL)
      · exact ⟨tid', th', Machine.fire_thread_other ht
          ((hr.threaded hbody).tid_lt _ _ hth') hth', hL⟩
    · exact own hL
  · intro c v s _ hc hok hv x hx
    exact hc x (env c v s x hok hv hx)
  · intro c p _ hc hok x hx
    obtain ⟨tid, th, hth, hL⟩ := hc x hx
    refine ⟨tid, th, Option.filter_eq_some_iff.mpr ⟨hth, ?_⟩, hL⟩
    simpa using fun hp => stop c p tid th x hok hth hp hx hL

end

end Reach

end Jarvis.Interleave
