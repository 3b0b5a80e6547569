import Jarvis.Steps
import Mathlib

/-!
# The dashboard: recording audit events

The `AuditRecorder`, whose methods, timers and deliveries the event loop processes in any order.
Source: `apps/dashboard/src/server/audit.ts`. An event is the number of those recorded before it
(its other fields are copied from the entry and read by nobody but the log). A `#drain` goes on
where it awaits; of those in the promise chain one runs, and the others wait. Timers may expire at
any time, so their delays are left out.
-/

namespace Jarvis.Dashboard.Recorder

open Steps

/-! ### Source -/

/-- Source: `RecorderOptions` -/
structure Options where
  queueSize : ℕ := 10000
  batchSize : ℕ := 200
  flushMs : ℕ := 500

/-- What the pending timer does: `#schedule`'s or the one after a failure. -/
inductive Timer where
  | flush
  | retry
  deriving DecidableEq

/-- Where the running `#drain` is. `sending`, `resending`: `send` was called with the batch, or with
one event of it and the rest to follow; `delivered`, `failed`: `#deliver` has returned, or
thrown. -/
inductive Drain where
  | idle
  | sending (batch : List ℕ)
  | resending (batch : List ℕ) (e : ℕ) (rest : List ℕ)
  | delivered (batch : List ℕ)
  | failed
  deriving DecidableEq

/-- The recorder, with the drains in `#chain` that have not begun; how many events were passed to
it, how many calls of `send` are not answered, what went out in them (one after the other), what
`send` has accepted and what was logged as not delivered. -/
structure State where
  queue : List ℕ
  timer : Option Timer
  backingOff : Bool
  drain : Drain
  chained : ℕ
  recorded : ℕ
  inFlight : ℕ
  sent : List ℕ
  accepted : List ℕ
  logged : List ℕ

inductive Answer where
  | accepted
  | refused
  | failed
  deriving DecidableEq

inductive Event where
  | record
  | flush
  | abandon
  | expire
  | start
  | answer (a : Answer)
  | resume
  deriving DecidableEq

namespace State

def init : State := ⟨[], none, false, .idle, 0, 0, 0, [], [], []⟩

/-- Source: `#schedule` -/
def schedule (s : State) (ms : ℕ) : State :=
  if s.backingOff then s else if s.timer.isSome ∧ 0 < ms then s else { s with timer := some .flush }

/-- Source: `#run` -/
def run (s : State) : State := { s with chained := s.chained + 1 }

/-- Source: `record` -/
def record (o : Options) (s : State) : State :=
  if o.queueSize ≤ s.queue.length then
    { s with recorded := s.recorded + 1, logged := s.recorded :: s.logged }
  else
    { s with recorded := s.recorded + 1, queue := s.queue ++ [s.recorded] }.schedule
      (if o.batchSize ≤ s.queue.length + 1 then 0 else o.flushMs)

/-- A call of `send`, and where it is awaited. -/
def send (s : State) (events : List ℕ) (drain : Drain) : State :=
  { s with sent := s.sent ++ events, inFlight := s.inFlight + 1, drain := drain }

/-- Source: `#drain`, at the head of its loop -/
def loop (o : Options) (s : State) : State :=
  if s.queue = [] then { s with drain := .idle }
  else s.send (s.queue.take o.batchSize) (.sending (s.queue.take o.batchSize))

/-- Source: `#deliver`, at the head of its loop -/
def each (s : State) (batch : List ℕ) : List ℕ → State
  | [] => { s with drain := .delivered batch }
  | e :: rest => s.send [e] (.resending batch e rest)

/-- Source: `#deliver`, when `send` has answered -/
def answer (s : State) (a : Answer) : Drain → Option State
  | .sending batch =>
    match a with
    | .accepted => some { s with accepted := batch ++ s.accepted, drain := .delivered batch }
    | .refused => some (s.each batch batch)
    | .failed => some { s with drain := .failed }
  | .resending batch e rest =>
    match a with
    | .accepted => some ({ s with accepted := e :: s.accepted }.each batch rest)
    | .refused => some ({ s with logged := e :: s.logged }.each batch rest)
    | .failed => some { s with drain := .failed }
  | _ => none

/-- Source: `#drain`, after `#deliver` -/
def resume (o : Options) (s : State) : Drain → Option State
  | .delivered batch => some ({ s with queue := s.queue.drop batch.length }.loop o)
  | .failed => some { s with backingOff := true, timer := some .retry, drain := .idle }
  | _ => none

/-- The callback of a timer. -/
def expire (s : State) : Timer → State
  | .flush => { s with timer := none }.run
  | .retry => { s with timer := none, backingOff := false }.run

end State

def step (o : Options) (s : State) : Event → Option State
  | .record => some (s.record o)
  | .flush => some { s with timer := none, backingOff := false }.run
  | .abandon => some { s with queue := [], logged := s.queue ++ s.logged }
  | .expire => s.timer.map s.expire
  | .start =>
    if s.drain = .idle ∧ 0 < s.chained then some ({ s with chained := s.chained - 1 }.loop o) else
      none
  | .answer a => { s with inFlight := s.inFlight - 1 }.answer a s.drain
  | .resume => s.resume o s.drain

/-! ### Every run -/

namespace Drain

/-- The batch that is removed from the queue when it is delivered. -/
def batch : Drain → List ℕ
  | .sending batch => batch
  | .resending batch _ _ => batch
  | .delivered batch => batch
  | _ => []

/-- What of it has not been answered yet. -/
def todo : Drain → List ℕ
  | .sending batch => batch
  | .resending _ e rest => e :: rest
  | _ => []

/-- How many calls of `send` it waits for. -/
def calls : Drain → ℕ
  | .sending _ => 1
  | .resending .. => 1
  | _ => 0

end Drain

/-- The queue is in order, and what has not been sent comes after all that was. -/
structure Queued (s : State) : Prop where
  retry : s.backingOff = true → s.timer = some .retry
  sorted : s.queue.Pairwise (· < ·)
  known : ∀ n, n ∈ s.queue ∨ n ∈ s.sent → n < s.recorded
  order : s.sent.eraseDups.Pairwise (· < ·)
  later : ∀ n ∈ s.queue, n ∉ s.sent → ∀ m ∈ s.sent, m < n

/-- `calls`: one call of `send` at a time; `going`: what is queued will be sent. -/
structure Good (s : State) : Prop extends Queued s where
  calls : s.inFlight = s.drain.calls
  going : s.queue ≠ [] → s.timer ≠ none ∨ s.drain ≠ .idle ∨ 0 < s.chained
  batch : ∀ n, n ∈ s.drain.batch ∨ n ∈ s.drain.todo → n ∈ s.sent

/-- A sorted list has nothing twice. -/
theorem eraseDups_of_sorted {l : List ℕ} (h : l.Pairwise (· < ·)) : l.eraseDups = l := by
  induction h with
  | nil => rfl
  | cons hlt _ ih =>
    rw [List.eraseDups_cons, List.filter_eq_self.mpr, ih]
    intro n hn
    simpa using (hlt n hn).ne'

variable {s s' : State} {o : Options}

section

/-- The queue does not depend on these fields. -/
theorem Queued.aside (h : Queued s) (inFlight chained : ℕ) (accepted logged : List ℕ) :
    Queued { s with
      inFlight := inFlight, chained := chained, accepted := accepted, logged := logged } :=
  { h with }

/-- Events may leave the queue. -/
theorem Queued.sublist (h : Queued s) (hq : queue.Sublist s.queue) :
    Queued { s with queue := queue } where
  retry := h.retry
  sorted := h.sorted.sublist hq
  known n hn := h.known n (hn.imp_left fun hn => hq.subset hn)
  order := h.order
  later n hn := h.later n (hq.subset hn)

variable {drain : Drain}

/-- The drain goes on without a call of `send`. -/
theorem Queued.goes (h : Queued s) (hcalls : s.inFlight = drain.calls)
    (hbatch : ∀ n, n ∈ drain.batch ∨ n ∈ drain.todo → n ∈ s.sent)
    (hidle : drain = .idle → s.queue ≠ [] → s.timer ≠ none) : Good { s with drain := drain } := by
  refine { h with calls := hcalls, going := fun hq => ?_, batch := hbatch }
  by_cases hfin : drain = .idle
  · exact .inl (hidle hfin hq)
  · exact .inr (.inl hfin)

/-- A call of `send`: what goes out for the first time is in order, and before the rest of the
queue. -/
theorem Queued.send (h : Queued s) {events : List ℕ} (hcalls : s.inFlight + 1 = drain.calls)
    (hbatch : ∀ n, n ∈ drain.batch ∨ n ∈ drain.todo → n ∈ s.sent ++ events)
    (hknown : ∀ n ∈ events, n < s.recorded) (hsorted : events.Pairwise (· < ·))
    (hlater : ∀ n ∈ events, n ∉ s.sent → ∀ m ∈ s.sent, m < n)
    (hrest : ∀ n ∈ s.queue, n ∉ s.sent → n ∉ events → ∀ m ∈ events, m < n) :
    Good (s.send events drain) := by
  have hnew : (events.removeAll s.sent).Sublist events := List.filter_sublist
  refine ⟨⟨h.retry, h.sorted, fun n hn => ?_, ?_, fun n hn hout m hm => ?_⟩, hcalls, fun _ =>
    .inr (.inl ?_), hbatch⟩
  · rw [State.send, List.mem_append, ← or_assoc] at hn
    exact hn.elim (h.known n) (hknown n)
  · rw [State.send, List.eraseDups_append, eraseDups_of_sorted (hsorted.sublist hnew),
      List.pairwise_append]
    refine ⟨h.order, hsorted.sublist hnew, fun m hm n hn => ?_⟩
    rw [List.mem_eraseDups] at hm
    obtain ⟨hn, hout⟩ := List.mem_filter.mp hn
    exact hlater n hn (by simpa using hout) m hm
  · rw [State.send, List.mem_append, not_or] at hout
    rcases List.mem_append.mp hm with hm | hm
    · exact h.later n hn hout.1 m hm
    · exact hrest n hn hout.1 hout.2 m hm
  · rintro rfl
    exact absurd hcalls (Nat.succ_ne_zero _)

/-- A drain that looks at the queue again. -/
theorem Queued.loop (h : Queued s) (hzero : s.inFlight = 0) : Good (s.loop o) := by
  rw [State.loop]
  split_ifs with hq
  · exact h.goes hzero (by simp [Drain.batch, Drain.todo]) fun _ hne => absurd hq hne
  · have hsub := List.take_sublist o.batchSize s.queue
    refine h.send (congrArg (· + 1) hzero) (fun n hn => List.mem_append_right _ (or_self_iff.mp hn))
      (fun n hn => h.known n (.inl (hsub.subset hn))) (h.sorted.sublist hsub)
      (fun n hn => h.later n (hsub.subset hn)) fun n hn _ hout m hm => ?_
    have hsorted := h.sorted
    rw [← List.take_append_drop o.batchSize s.queue] at hn hsorted
    exact (List.pairwise_append.mp hsorted).2.2 m hm n ((List.mem_append.mp hn).resolve_left hout)

/-- A batch that is sent one by one. -/
theorem Queued.each (h : Queued s) (hzero : s.inFlight = 0) (hbatch : ∀ n ∈ batch, n ∈ s.sent)
    (hrest : ∀ n ∈ rest, n ∈ s.sent) : Good (s.each batch rest) := by
  cases rest with
  | nil => exact h.goes hzero (by simpa [Drain.batch, Drain.todo] using hbatch) (by simp)
  | cons e rest =>
    -- It has been sent before, with its batch.
    have he := hrest e List.mem_cons_self
    refine h.send (congrArg (· + 1) hzero)
      (fun n hn => List.mem_append_left _ (hn.elim (hbatch n) (hrest n)))
      (by simpa using h.known e (.inr he)) (List.pairwise_singleton _ _) ?_ ?_
    · intro n hn hout
      exact absurd (List.mem_singleton.mp hn ▸ he) hout
    · intro n hn hout _ m hm
      exact h.later n hn hout m (List.mem_singleton.mp hm ▸ he)

/-- An answer of the service. -/
theorem Good.answer (h : Good s)
    (hs : State.answer { s with inFlight := s.inFlight - 1 } a s.drain = some s') : Good s' := by
  have hbatch := h.batch
  have hcalls := h.calls
  have hq := h.toQueued.aside (s.inFlight - 1) s.chained
  unfold State.answer at hs
  split at hs
  next batch hd =>
    rw [hd] at hcalls hbatch
    have hzero : s.inFlight - 1 = 0 := by rw [hcalls]; rfl
    have hsent : ∀ n ∈ batch, n ∈ s.sent := fun n hn => hbatch n (.inl hn)
    split at hs <;> cases hs
    · exact (hq (batch ++ s.accepted) s.logged).goes hzero
        (by simpa [Drain.batch, Drain.todo] using hsent) (by simp)
    · exact (hq s.accepted s.logged).each hzero hsent hsent
    · exact (hq s.accepted s.logged).goes hzero (by simp [Drain.batch, Drain.todo]) (by simp)
  next batch e rest hd =>
    rw [hd] at hcalls hbatch
    have hzero : s.inFlight - 1 = 0 := by rw [hcalls]; rfl
    have hsent : ∀ n ∈ batch, n ∈ s.sent := fun n hn => hbatch n (.inl hn)
    have hrest : ∀ n ∈ rest, n ∈ s.sent := fun n hn => hbatch n (.inr (List.mem_cons_of_mem _ hn))
    split at hs <;> cases hs
    · exact (hq (e :: s.accepted) s.logged).each hzero hsent hrest
    · exact (hq s.accepted (e :: s.logged)).each hzero hsent hrest
    · exact (hq s.accepted s.logged).goes hzero (by simp [Drain.batch, Drain.todo]) (by simp)
  next => exact absurd hs (by simp)

/-- A drain that goes on after its `await`. -/
theorem Good.resume (h : Good s) (hs : s.resume o s.drain = some s') : Good s' := by
  have hcalls := h.calls
  unfold State.resume at hs
  split at hs
  next batch hd =>
    cases hs
    rw [hd] at hcalls
    exact (h.toQueued.sublist (List.drop_sublist _ _)).loop hcalls
  next hd =>
    cases hs
    rw [hd] at hcalls
    have hback : Queued { s with backingOff := true, timer := some .retry } :=
      { h.toQueued with retry := fun _ => rfl }
    exact hback.goes hcalls (by simp [Drain.batch, Drain.todo]) (by simp)
  next => exact absurd hs (by simp)

/-- A timer that starts a drain. -/
theorem Good.run (h : Good s) (hretry : backingOff = true → timer = some .retry) :
    Good ({ s with timer := timer, backingOff := backingOff }.run) :=
  { h with retry := hretry, going := fun _ => .inr (.inr (Nat.succ_pos _)) }

/-- An event that is recorded. -/
theorem Good.record (h : Good s) : Good (s.record o) := by
  -- Whatever the delay, a timer is pending then.
  have hpush : ∀ timer, timer ≠ none → (s.backingOff = true → timer = some .retry) →
      Good { s with
        recorded := s.recorded + 1, queue := s.queue ++ [s.recorded], timer := timer } := by
    intro timer htimer hretry
    refine { h with
      retry := hretry, going := fun _ => .inl htimer
      sorted := ?_, known := fun n hn => ?_, later := ?_ }
    · refine List.pairwise_append.mpr ⟨h.sorted, List.pairwise_singleton _ _, fun n hn m hm => ?_⟩
      rw [List.mem_singleton.mp hm]
      exact h.known n (.inl hn)
    · rw [List.mem_append, List.mem_singleton, or_right_comm] at hn
      rcases hn with hn | rfl
      · exact Nat.lt_succ_of_lt (h.known n hn)
      · exact Nat.lt_succ_self _
    · intro n hn hout m hm
      rcases List.mem_append.mp hn with hn | hn
      · exact h.later n hn hout m hm
      · rw [List.mem_singleton.mp hn]
        exact h.known m (.inr hm)
  have hschedule : ∀ ms, Good
      ({ s with recorded := s.recorded + 1, queue := s.queue ++ [s.recorded] }.schedule ms) := by
    intro ms
    rw [State.schedule]
    split_ifs with hback htimer
    · exact hpush s.timer (by simp [h.retry hback]) h.retry
    · exact hpush s.timer (Option.isSome_iff_ne_none.mp htimer.1) h.retry
    · exact hpush (some .flush) (by simp) fun hb => absurd hb hback
  rw [State.record]
  by_cases hfull : o.queueSize ≤ s.queue.length
  · rw [if_pos hfull]
    exact { h with known := fun n hn => Nat.lt_succ_of_lt (h.known n hn) }
  · rw [if_neg hfull]
    exact hschedule _

/-- What holds in every run. -/
theorem Good.step (h : Good s) (hs : step o s l = some s') : Good s' := by
  cases l with
  | record => exact Option.some.inj hs ▸ h.record
  | flush => exact Option.some.inj hs ▸ h.run (by simp)
  | abandon =>
    cases hs
    have hq : Queued { s with queue := [] } := h.toQueued.sublist (List.nil_sublist _)
    exact { hq with calls := h.calls, going := by simp, batch := h.batch }
  | expire =>
    obtain ⟨t, ht, rfl⟩ := Option.map_eq_some_iff.mp hs
    cases t with
    | flush =>
      have hb : s.backingOff = true → (none : Option Timer) = some .retry := fun hb =>
        absurd (h.retry hb) (by simp [ht])
      exact h.run hb
    | retry => exact h.run (by simp)
  | start =>
    simp only [Recorder.step] at hs
    split_ifs at hs with hidle
    cases hs
    have hcalls := h.calls
    rw [hidle.1] at hcalls
    exact (h.toQueued.aside s.inFlight (s.chained - 1) s.accepted s.logged).loop hcalls
  | answer a => exact h.answer hs
  | resume => exact h.resume hs

theorem Good.init : Good .init where
  retry := by simp [State.init]
  sorted := .nil
  known n hn := by simp [State.init] at hn
  order := .nil
  later n hn := by simp [State.init] at hn
  calls := rfl
  going hq := absurd rfl hq
  batch n hn := by simp [State.init, Drain.batch, Drain.todo] at hn

end

/-! ### Where every event is -/

/-- Whether an event is recorded only while the queue begins with the batch that is being
delivered. -/
def inFront (s : State) : Event → Bool
  | .record => s.drain.batch.isPrefixOf s.queue
  | _ => true

/-- `found`: no event is lost; `held`, `done`: a batch stays in front of the queue until all of it
was answered, unless everything was abandoned. -/
structure Kept (s : State) : Prop where
  found : ∀ n < s.recorded, n ∈ s.queue ∨ n ∈ s.accepted ∨ n ∈ s.logged
  held : s.drain.batch <+: s.queue ∨ s.queue = []
  done : ∀ n ∈ s.drain.batch, n ∈ s.drain.todo ∨ n ∈ s.accepted ∨ n ∈ s.logged

/-- Where the events are, beside the drain. -/
def Found (s : State) : Prop := ∀ n < s.recorded, n ∈ s.queue ∨ n ∈ s.accepted ∨ n ∈ s.logged

/-- A drain that looks at the queue again loses nothing. -/
theorem Found.loop (h : Found s) : Kept (s.loop o) := by
  rw [State.loop]
  split_ifs with hq
  · exact ⟨h, .inr hq, by simp [Drain.batch]⟩
  · exact ⟨h, .inl (List.take_prefix _ _), fun n hn => .inl hn⟩

/-- Nor does a batch that is sent one by one. -/
theorem Found.each (h : Found s) (hheld : batch <+: s.queue ∨ s.queue = [])
    (hdone : ∀ n ∈ batch, n ∈ rest ∨ n ∈ s.accepted ∨ n ∈ s.logged) : Kept (s.each batch rest) := by
  cases rest with
  | nil | cons => exact ⟨h, hheld, hdone⟩

/-- One more event was answered. -/
theorem mem_answered {e n : ℕ} {queue accepted logged : List ℕ}
    (h : n ∈ queue ∨ n ∈ accepted ∨ n ∈ logged) :
    (n ∈ queue ∨ n ∈ e :: accepted ∨ n ∈ logged) ∧
    (n ∈ queue ∨ n ∈ accepted ∨ n ∈ e :: logged) := by
  simp only [List.mem_cons]
  tauto

/-- An answer of the service loses nothing. -/
theorem Kept.answer (h : Kept s) {a : Answer} {k : ℕ}
    (hs : State.answer { s with inFlight := k } a s.drain = some s') : Kept s' := by
  obtain ⟨hfound, hheld, hdone⟩ := h
  unfold State.answer at hs
  split at hs
  next batch hd =>
    rw [hd] at hheld
    split at hs <;> cases hs
    · refine ⟨fun n hn => ?_, hheld, fun n hn => .inr (.inl (List.mem_append_left _ hn))⟩
      exact (hfound n hn).imp_right (Or.imp_left (List.mem_append_right _))
    · exact Found.each (s := { s with inFlight := k }) hfound hheld fun n hn => .inl hn
    · exact ⟨hfound, by simp [Drain.batch], by simp [Drain.batch]⟩
  next batch e rest hd =>
    rw [hd] at hheld hdone
    -- The event that was answered is in one of the lists now.
    split at hs <;> cases hs
    · refine Found.each (s := { s with inFlight := k, accepted := e :: s.accepted })
        (fun n hn => (mem_answered (hfound n hn)).1) hheld fun n hn => ?_
      have := hdone n hn
      simp only [Drain.todo, List.mem_cons] at this ⊢
      tauto
    · refine Found.each (s := { s with inFlight := k, logged := e :: s.logged })
        (fun n hn => (mem_answered (hfound n hn)).2) hheld fun n hn => ?_
      have := hdone n hn
      simp only [Drain.todo, List.mem_cons] at this ⊢
      tauto
    · exact ⟨hfound, by simp [Drain.batch], by simp [Drain.batch]⟩
  next => exact absurd hs (by simp)

/-- What a delivered batch takes off the queue was answered. -/
theorem Kept.resume (h : Kept s) (hs : s.resume o s.drain = some s') : Kept s' := by
  obtain ⟨hfound, hheld, hdone⟩ := h
  unfold State.resume at hs
  split at hs
  next batch hd =>
    cases hs
    rw [hd] at hheld hdone
    refine Found.loop fun n hn => ?_
    rcases hfound n hn with hq | hother
    · rcases hheld with ⟨rest, hrest⟩ | hnil
      · rw [← hrest, List.mem_append] at hq
        rcases hq with hq | hq
        · exact .inr ((hdone n hq).resolve_left List.not_mem_nil)
        · refine .inl ?_
          rw [← hrest, Drain.batch, List.drop_left]
          exact hq
      · rw [hnil] at hq
        exact absurd hq List.not_mem_nil
    · exact .inr hother
  next hd =>
    cases hs
    exact ⟨hfound, by simp [Drain.batch], by simp [Drain.batch]⟩
  next => exact absurd hs (by simp)

theorem Kept.schedule (h : Kept s) (ms : ℕ) : Kept (s.schedule ms) := by
  rw [State.schedule]
  split_ifs
  · exact h
  · exact h
  · exact ⟨h.found, h.held, h.done⟩

/-- An event that is recorded is kept, unless it is behind an abandoned batch. -/
theorem Kept.record (h : Kept s) (hok : inFront s .record = true) : Kept (s.record o) := by
  have hfront : s.drain.batch <+: s.queue := by simpa [inFront] using hok
  rw [State.record]
  by_cases hfull : o.queueSize ≤ s.queue.length
  · rw [if_pos hfull]
    refine ⟨fun n hn => ?_, h.held, fun n hn => (mem_answered (h.done n hn)).2⟩
    rcases Nat.lt_succ_iff_lt_or_eq.mp hn with hn | rfl
    · exact (mem_answered (h.found n hn)).2
    · exact .inr (.inr List.mem_cons_self)
  · rw [if_neg hfull]
    apply Kept.schedule
    refine ⟨fun n hn => ?_, .inl (hfront.trans (List.prefix_append _ _)), h.done⟩
    rcases Nat.lt_succ_iff_lt_or_eq.mp hn with hn | rfl
    · exact (h.found n hn).imp_left (List.mem_append_left _)
    · exact .inl List.mem_concat_self

/-- Where every event is, as long as nothing is recorded behind an abandoned batch. -/
theorem Kept.step (h : Kept s) (hok : inFront s l = true) (hs : step o s l = some s') :
    Kept s' := by
  cases l with
  | record => exact Option.some.inj hs ▸ h.record hok
  | flush => exact Option.some.inj hs ▸ ⟨h.found, h.held, h.done⟩
  | abandon =>
    cases hs
    refine ⟨fun n hn => ?_, .inr rfl, fun n hn => ?_⟩
    · have := h.found n hn
      simp only [List.mem_append, List.not_mem_nil, false_or]
      tauto
    · exact (h.done n hn).imp_right (Or.imp_right (List.mem_append_right _))
  | expire =>
    obtain ⟨t, -, rfl⟩ := Option.map_eq_some_iff.mp hs
    cases t with
    | flush | retry => exact ⟨h.found, h.held, h.done⟩
  | start =>
    simp only [Recorder.step] at hs
    split_ifs at hs
    exact Option.some.inj hs ▸ Found.loop h.found
  | answer a => exact h.answer hs
  | resume => exact h.resume hs

/-- **The recorder.** In every run: whenever the queue is not empty a timer is pending, or a drain
is running or chained; one call of `send` is under way at a time; and events go out for the first
time in the order they were recorded. In every run in which nothing is recorded behind a delivery
whose batch was abandoned, every event is in the queue, accepted, or logged as not delivered. -/
theorem recorder_keeps (o : Options) :
    (∀ ls s, Runs (step o) (fun _ _ => true = true) .init ls s →
      (s.queue ≠ [] → s.timer ≠ none ∨ s.drain ≠ .idle ∨ 0 < s.chained) ∧ s.inFlight ≤ 1 ∧
      s.sent.eraseDups.Pairwise (· < ·)) ∧
    ∀ ls s, Runs (step o) (fun s l => inFront s l = true) .init ls s →
      ∀ n < s.recorded, n ∈ s.queue ∨ n ∈ s.accepted ∨ n ∈ s.logged := by
  refine ⟨fun ls s hs => ?_, fun ls s hs => ?_⟩
  · have hgood : Good s := hs.inv (fun _ _ _ h _ => h.step) .init
    refine ⟨hgood.going, ?_, hgood.order⟩
    rw [hgood.calls]
    cases s.drain <;> simp [Drain.calls]
  · have hkept : Kept s := hs.inv (fun _ _ _ h hok => h.step hok)
      ⟨by simp [State.init], .inr rfl, by simp [State.init, Drain.batch]⟩
    exact hkept.found

/-- The first batch is refused, and so is one of its events; the second one fails and is sent
again. -/
def refusedThenFailed : List Event :=
  [.record, .record, .expire, .start, .answer .refused, .record, .answer .accepted,
    .answer .refused, .resume, .answer .failed, .resume, .record, .expire, .start,
    .answer .accepted, .resume]

/-- Two events wait to be sent again, and are accepted in the end. -/
theorem recorder_keeps_refusedThenFailed :
    (∃ s, Runs (step {}) (fun _ _ => true = true) .init (refusedThenFailed.take 12) s ∧
      s.queue = [2, 3] ∧ (s.timer ≠ none ∨ s.drain ≠ .idle ∨ 0 < s.chained)) ∧
    ∃ s, Runs (step {}) (fun s l => inFront s l = true) .init refusedThenFailed s ∧
      (s.queue, s.accepted, s.logged) = ([], [2, 3, 0], [1]) ∧
      ∀ n < s.recorded, n ∈ s.queue ∨ n ∈ s.accepted ∨ n ∈ s.logged := by
  obtain ⟨s, hs, hq⟩ : ∃ s, Runs (step {}) (fun _ _ => true = true) .init
    (refusedThenFailed.take 12) s ∧
      s.queue = [2, 3] := exists_of_run (by decide +kernel)
  obtain ⟨t, ht, hend⟩ : ∃ s, Runs (step {})
    (fun s l => inFront s l = true) .init refusedThenFailed s ∧
      (s.queue, s.accepted, s.logged) = ([], [2, 3, 0], [1]) := exists_of_run (by decide +kernel)
  exact ⟨⟨s, hs, hq, ((recorder_keeps {}).1 _ s hs).1 (by simp [hq])⟩, t, ht, hend,
    (recorder_keeps {}).2 _ t ht⟩

/-- The batch is abandoned while it is being sent, and another event is recorded; it is removed in
the place of the batch. -/
theorem lost_behind_abandoned :
    ∃ s, Runs (step {}) (fun _ _ => true = true) .init
      [.record, .expire, .start, .abandon, .record, .answer .accepted, .resume] s ∧
      1 < s.recorded ∧ 1 ∉ s.queue ∧ 1 ∉ s.accepted ∧ 1 ∉ s.logged ∧ 1 ∉ s.sent :=
  exists_of_run (by decide +kernel)

end Jarvis.Dashboard.Recorder
