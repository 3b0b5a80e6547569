import Jarvis.AuditLog.Recorder
import Jarvis.Pool
import Mathlib.Data.List.Count

/-!
# No audit event is lost silently

Every event that was passed to `Record` is at every moment with its caller, in the queue or in the
loop's hands, or it was accepted or written to the log (`Kept.count`). When the loop stops it holds
nothing, and nothing is queued; so what is left to show is that nothing is queued afterwards. That
fails for a caller that has seen the recorder open, and only then puts its event into the queue:
`careful` says that there is no such caller when the loop looks at the queue for the last time.
-/

namespace Jarvis.AuditLog

open Pool Steps

variable {E : Type} [DecidableEq E] {o : Options} {r r' : Recorder E}

/-- The events that the loop holds. -/
def Loop.held (o : Options) : Loop E → List E
  | .top batch _ => batch
  | .draining batch => batch
  | .flushing batch _ => batch
  | .sending batch _ => batch
  | .resending batch done _ => (Recorder.head o batch).drop done ++ Recorder.rest o batch
  | .waiting batch => batch
  | .dropping batch => batch
  | .emptying => []
  | .stopped => []

/-- The loop's batch, with the events that were already answered for. -/
def Loop.batch : Loop E → List E
  | .top batch _ => batch
  | .draining batch => batch
  | .flushing batch _ => batch
  | .sending batch _ => batch
  | .resending batch _ _ => batch
  | .waiting batch => batch
  | .dropping batch => batch
  | .emptying => []
  | .stopped => []

/-- The loop has seen that it is to stop. -/
def Loop.stopping : Loop E → Bool
  | .top _ stopping => stopping
  | .flushing _ stopping => stopping
  | .sending _ stopping => stopping
  | .resending _ _ stopping => stopping
  | .waiting _ => false
  | _ => true

/-- The loop has looked at the queue for the last time. -/
def Loop.last : Loop E → Bool
  | .flushing [] true => true
  | .stopped => true
  | _ => false

/-- What has become of an event, so often: it is with a caller, in the queue or with the loop, was
accepted or was logged. -/
def Recorder.found (o : Options) (r : Recorder E) (e : E) : ℕ :=
  (r.callers.map Caller.event).count e + r.queue.count e + (r.loop.held o).count e +
    r.accepted.count e + (r.logged.map Prod.fst).count e

/-- What holds of a recorder. -/
structure Kept (o : Options) (r : Recorder E) : Prop where
  count : ∀ e, r.passed.count e ≤ r.found o e
  stop : r.stop = true → r.closed = true
  stopping : r.loop.stopping = true → r.stop = true
  last : r.loop.last = true → r.queue = [] ∧ ∀ c ∈ r.callers, c.checked = false

/-- Nobody has seen the recorder open and not yet put its event into the queue. -/
def Recorder.settled (r : Recorder E) : Bool := r.callers.all fun c => !c.checked

/-- The loop looks at the queue for the last time only when nobody is about to put an event into
it. -/
def careful (r : Recorder E) : Label E → Bool
  | .go =>
    match r.loop, r.queue with
    | .draining [], [] => r.settled
    | .emptying, [] => r.settled
    | _, _ => true
  | _ => true

omit [DecidableEq E] in
theorem head_append_rest (batch : List E) :
    Recorder.head o batch ++ Recorder.rest o batch = batch :=
  List.take_append_drop _ _

theorem count_head_rest (batch : List E) (e : E) :
    (Recorder.head o batch).count e + (Recorder.rest o batch).count e = batch.count e := by
  rw [← List.count_append, head_append_rest]

/-- A caller and the others. -/
theorem count_callers {callers : List (Caller E)} {i : ℕ} {c : Caller E} (h : callers[i]? = some c)
    (e : E) : (callers.map Caller.event).count e =
      ((callers.eraseIdx i).map Caller.event).count e + if c.event == e then 1 else 0 := by
  have hperm := (perm_of_getElem? h).map Caller.event
  rw [List.map_cons] at hperm
  rw [← hperm.count_eq, List.count_cons]

theorem Kept.init : Kept o (Recorder.init : Recorder E) :=
  ⟨fun _ => Nat.zero_le _, (fun h => nomatch h), (fun h => nomatch h), (fun h => nomatch h)⟩

/-! ### The callers -/

theorem Kept.record (h : Kept o r) (e : E) :
    Kept o { r with passed := e :: r.passed, callers := ⟨e, false⟩ :: r.callers } := by
  refine ⟨fun x => ?_, h.stop, h.stopping, fun hl => ?_⟩
  · have hx := h.count x
    simp only [Recorder.found, List.map_cons, List.count_cons] at hx ⊢
    omega
  · obtain ⟨hqueue, hcallers⟩ := h.last hl
    refine ⟨hqueue, fun c hc => ?_⟩
    rcases List.mem_cons.mp hc with rfl | hc
    · rfl
    · exact hcallers c hc

theorem Kept.check (h : Kept o r) {i : ℕ} (hs : r.check i = some r') : Kept o r' := by
  unfold Recorder.check at hs
  split at hs
  next e hc =>
    split_ifs at hs with hclosed
    · cases hs
      refine ⟨fun x => ?_, h.stop, h.stopping, fun hl => ?_⟩
      · have hx := h.count x
        simp only [Recorder.found, count_callers hc x] at hx
        simp only [Recorder.found, Recorder.undelivered, Recorder.returned, List.map_cons,
          List.count_cons]
        omega
      · obtain ⟨hqueue, hcallers⟩ := h.last hl
        exact ⟨hqueue, fun c hc => hcallers c (List.mem_of_mem_eraseIdx hc)⟩
    · cases hs
      -- The recorder is open, so that the loop has not seen that it is to stop.
      have hlast : r.loop.last = false := by
        by_contra hl
        have hstopping : r.loop.stopping = true := by
          cases hloop : r.loop with
          | flushing batch stopping =>
            rw [hloop] at hl
            cases batch <;> cases stopping <;> simp_all [Loop.last, Loop.stopping]
          | stopped => rfl
          | _ => simp [hloop, Loop.last] at hl
        exact hclosed (h.stop (h.stopping hstopping))
      refine ⟨fun x => ?_, h.stop, h.stopping, fun hl => absurd hl (by simp [hlast])⟩
      have hx := h.count x
      have hset := ((set_perm ⟨e, true⟩ hc).map Caller.event).count_eq x
      rw [List.map_cons, List.count_cons] at hset
      simp only [Recorder.found, count_callers hc x] at hx
      simp only [Recorder.found, hset]
      omega
  next => cases hs

theorem Kept.enqueue (h : Kept o r) {i : ℕ} (hs : r.enqueue o i = some r') : Kept o r' := by
  unfold Recorder.enqueue at hs
  split at hs
  next e hc =>
    -- A caller that has seen the recorder open is only there before the last look.
    have hlast : r.loop.last = false := by
      by_contra hl
      have hchecked := (h.last (by simpa using hl)).2 _ (List.mem_of_getElem? hc)
      cases hchecked
    have hnot : ∀ {P : Prop}, r.loop.last = true → P := fun hl => absurd hl (by simp [hlast])
    split_ifs at hs
    · cases hs
      refine ⟨fun x => ?_, h.stop, h.stopping, hnot⟩
      have hx := h.count x
      simp only [Recorder.found, count_callers hc x] at hx
      simp only [Recorder.found, Recorder.returned, List.count_append, List.count_singleton]
      omega
    · cases hs
      refine ⟨fun x => ?_, h.stop, h.stopping, hnot⟩
      have hx := h.count x
      simp only [Recorder.found, count_callers hc x] at hx
      simp only [Recorder.found, Recorder.undelivered, Recorder.returned, List.map_cons,
        List.count_cons]
      omega
  next => cases hs

/-! ### The loop -/

omit [DecidableEq E] in
theorem settled_iff : r.settled = true ↔ ∀ c ∈ r.callers, c.checked = false := by
  unfold Recorder.settled
  rw [List.all_eq_true]
  exact forall₂_congr fun c _ => by rw [Bool.not_eq_true']

/-- What a step of the loop leaves, the answers of the service apart: it goes on with what it holds,
takes an event from the queue, or writes one to the log at shutdown. -/
inductive Move (o : Options) (r : Recorder E) (l : Label E) : Recorder E → Prop
  | turn (hheld : loop.held o = r.loop.held o) (hbatch : loop.batch.Sublist r.loop.batch)
      (hdropping : ∀ batch, loop ≠ .dropping batch)
      (hstop : loop.stopping = true → r.loop.stopping = true ∨ r.stop = true)
      (hlast : loop.last = true → r.loop.last = true ∨ r.queue = [] ∧ careful r l = r.settled) :
      Move o r l { r with loop := loop }
  | take (hqueue : r.queue = e :: queue) (hheld : loop.held o = r.loop.held o ++ [e])
      (hbatch : loop.batch = r.loop.batch ++ [e]) (hdropping : ∀ batch, loop ≠ .dropping batch)
      (hstop : loop.stopping = true → r.loop.stopping = true) (hlast : loop.last = false) :
      Move o r l { r with queue := queue, loop := loop }
  | drop (hloop : r.loop = .dropping (e :: batch)) :
      Move o r l { r.undelivered e .unreachable with loop := .dropping batch }
  | empty (hloop : r.loop = .emptying) (hqueue : r.queue = e :: queue) :
      Move o r l { r.undelivered e .unreachable with queue := queue }

section

omit [DecidableEq E]

variable {l : Label E}

/-- The loop goes on with its batch. -/
theorem Move.same {loop₀ loop : Loop E} (hloop : r.loop = loop₀)
    (hheld : loop.held o = loop₀.held o)
    (hbatch : loop.batch = loop₀.batch) (hdropping : ∀ batch, loop ≠ .dropping batch)
    (hstop : loop.stopping = true → loop₀.stopping = true ∨ r.stop = true)
    (hlast : loop.last = true → loop₀.last = true ∨ r.queue = [] ∧ careful r l = r.settled) :
    Move o r l { r with loop := loop } := by
  subst hloop
  exact .turn hheld (hbatch ▸ List.Sublist.refl _) hdropping hstop hlast

theorem Move.of_go (hs : r.go o = some r') : Move o r .go r' := by
  unfold Recorder.go at hs
  split at hs
  next batch hloop =>
    cases hs
    exact .same hloop rfl rfl (by simp) (fun _ => .inl rfl) (by simp [Loop.last])
  next batch hloop =>
    split_ifs at hs
    cases hs
    exact .same hloop rfl rfl (by simp) (by simp [Loop.stopping])
      (by cases batch <;> simp [Loop.last])
  next batch hloop =>
    split_ifs at hs with hlt
    · split at hs
      next e queue hqueue =>
        cases hs
        exact .take hqueue (by rw [hloop]; rfl) (by rw [hloop]; rfl) (by simp)
          (fun _ => by rw [hloop]; rfl) rfl
      next hqueue =>
        cases hs
        refine .same hloop rfl rfl (by simp) (fun _ => .inl rfl) fun hl => .inr ⟨hqueue, ?_⟩
        -- This was the last look, if there was nothing to send either.
        cases batch with
        | nil => simp only [careful, hloop, hqueue]
        | cons e batch => cases hl
    · cases hs
      refine .same hloop rfl rfl (by simp) (fun _ => .inl rfl) fun hl => ?_
      cases batch with
      | nil => exact absurd o.batchSize_pos hlt
      | cons e batch => cases hl
  next stopping hloop =>
    cases hs
    cases stopping with
    | true => exact .same hloop rfl rfl (by simp) (fun _ => .inl rfl) (fun _ => .inl rfl)
    | false => exact .same hloop rfl rfl (by simp) (by simp [Loop.stopping]) (by simp [Loop.last])
  next batch stopping _ hloop =>
    cases hs
    exact .same hloop rfl rfl (by simp) .inl (by simp [Loop.last])
  next batch done stopping hloop =>
    split_ifs at hs with hdone
    cases hs
    refine .turn ?_ ?_ (by simp) (fun hst => .inl (by rw [hloop]; exact hst)) (by simp [Loop.last])
    · rw [hloop]
      simp only [Loop.held, List.drop_eq_nil_of_le hdone, List.nil_append]
    · rw [hloop]
      exact List.drop_sublist _ _
  next e batch hloop => exact Option.some.inj hs ▸ .drop hloop
  next hloop =>
    cases hs
    exact .same hloop rfl rfl (by simp) (fun _ => .inl rfl) (by simp [Loop.last])
  next hloop =>
    split at hs
    next e queue hqueue => exact Option.some.inj hs ▸ .empty hloop hqueue
    next hqueue =>
      cases hs
      exact .same hloop rfl rfl (by simp) (fun _ => .inl rfl)
        fun _ => .inr ⟨hqueue, by simp only [careful, hloop, hqueue]⟩
  next => cases hs

/-- The steps of the loop. -/
def Label.ofLoop : Label E → Bool
  | .take | .tick | .see | .go | .elapse => true
  | _ => false

theorem Move.of_step (hl : l.ofLoop = true) (hs : r.step o l = some r') : Move o r l r' := by
  cases l with
  | take =>
    simp only [Recorder.step] at hs
    split at hs
    next batch e queue hloop hqueue =>
      split_ifs at hs
      cases hs
      exact .take hqueue (by rw [hloop]; rfl) (by rw [hloop]; rfl) (by simp)
        (by simp [Loop.stopping]) rfl
    next => cases hs
  | tick =>
    simp only [Recorder.step] at hs
    split at hs
    next batch hloop =>
      split_ifs at hs
      cases hs
      exact .same hloop rfl rfl (by simp) (by simp [Loop.stopping])
        (by cases batch <;> simp [Loop.last])
    next => cases hs
  | see =>
    simp only [Recorder.step] at hs
    split at hs
    next batch hloop =>
      split_ifs at hs with hstop
      cases hs
      exact .same hloop rfl rfl (by simp) (fun _ => .inr hstop.2) (by simp [Loop.last])
    next batch hloop =>
      split_ifs at hs with hstop
      cases hs
      exact .same hloop rfl rfl (by simp) (fun _ => .inr hstop) (by simp [Loop.last])
    next => cases hs
  | go => exact .of_go hs
  | elapse =>
    simp only [Recorder.step] at hs
    split at hs
    next batch hloop =>
      cases hs
      exact .same hloop rfl rfl (by simp) (by simp [Loop.stopping]) (by simp [Loop.last])
    next => cases hs
  | _ => cases hl

end

/-- The loop goes on with the events that it holds, and may take one from the queue. -/
theorem Kept.go_on (h : Kept o r) {queue : List E} {loop : Loop E}
    (hcount : ∀ e, r.queue.count e + (r.loop.held o).count e ≤ queue.count e +
      (loop.held o).count e)
    (hstopping : loop.stopping = true → r.stop = true)
    (hlast : loop.last = true → queue = [] ∧ ∀ c ∈ r.callers, c.checked = false) :
    Kept o { r with queue := queue, loop := loop } := by
  refine ⟨fun e => ?_, h.stop, hstopping, hlast⟩
  have he := h.count e
  have hle := hcount e
  simp only [Recorder.found] at he ⊢
  omega

/-- An event of the loop is written to the log. -/
theorem Kept.log (h : Kept o r) {queue : List E} {loop : Loop E} {e : E} {why : Why}
    (hcount : ∀ x, r.queue.count x + (r.loop.held o).count x ≤
      queue.count x + (loop.held o).count x + if e == x then 1 else 0)
    (hstopping : loop.stopping = true → r.stop = true) (hlast : loop.last = false) :
    Kept o { r.undelivered e why with queue := queue, loop := loop } := by
  refine ⟨fun x => ?_, h.stop, hstopping, fun hl => absurd hl (by simp [hlast])⟩
  have hx := h.count x
  have hle := hcount x
  simp only [Recorder.found, Recorder.undelivered, List.map_cons, List.count_cons] at hx ⊢
  omega

/-- Events of the loop are accepted. -/
theorem Kept.accept (h : Kept o r) {events : List E} {loop : Loop E}
    (hcount : ∀ x, (r.loop.held o).count x ≤ (loop.held o).count x + events.count x)
    (hstopping : loop.stopping = true → r.stop = true) (hlast : loop.last = false) :
    Kept o { r with accepted := events ++ r.accepted, loop := loop } := by
  refine ⟨fun x => ?_, h.stop, hstopping, fun hl => absurd hl (by simp [hlast])⟩
  have hx := h.count x
  have hle := hcount x
  simp only [Recorder.found, List.count_append] at hx ⊢
  omega

/-- Nothing is lost of a call that was accepted and failed all the same. -/
theorem Kept.committed (h : Kept o r) {accepted : Bool} {events : List E} :
    Kept o (r.committed accepted events) := by
  refine ⟨fun x => ?_, h.stop, h.stopping, h.last⟩
  have hx := h.count x
  simp only [Recorder.found, Recorder.committed, List.count_append] at hx ⊢
  omega

theorem Kept.move (h : Kept o r) {l : Label E} (hm : Move o r l r')
    (hcareful : careful r l = true) : Kept o r' := by
  cases hm with
  | turn hheld _ _ hstop hlast =>
    refine h.go_on (fun e => by rw [hheld]) (fun hst => (hstop hst).elim h.stopping id) fun hl => ?_
    rcases hlast hl with hl | ⟨hqueue, hsettled⟩
    · exact h.last hl
    · exact ⟨hqueue, settled_iff.mp (hsettled ▸ hcareful)⟩
  | take hqueue hheld _ _ hstop hlast =>
    refine h.go_on (fun x => ?_) (fun hst => h.stopping (hstop hst)) fun hl =>
      absurd hl (by simp [hlast])
    rw [hqueue, hheld, List.count_append, List.count_cons, List.count_singleton]
    omega
  | drop hloop =>
    refine h.log (fun x => ?_) (fun _ => h.stopping (by rw [hloop]; rfl)) rfl
    rw [hloop]
    simp only [Recorder.undelivered, Loop.held, List.count_cons]
    omega
  | @empty e queue hloop hqueue =>
    have hcount : ∀ x, r.queue.count x + (r.loop.held o).count x ≤
        queue.count x + (r.loop.held o).count x + if e == x then 1 else 0 := by
      intro x
      rw [hqueue, List.count_cons]
      omega
    have hlast : r.loop.last = false := by rw [hloop]; rfl
    exact h.log hcount (fun _ => h.stopping (by rw [hloop]; rfl)) hlast

/-- The loop holds the batch of a call that failed, whether it was accepted or not. -/
theorem Kept.failed (h : Kept o r) {batch : List E} {stopping : Bool}
    (hcount : ∀ e, (r.loop.held o).count e ≤ batch.count e)
    (hstopping : stopping = true → r.stop = true) : Kept o (r.failed batch stopping) := by
  cases stopping with
  | true =>
    refine h.go_on (fun e => ?_) (fun _ => hstopping rfl) (fun hl => nomatch hl)
    exact Nat.add_le_add_left (hcount e) _
  | false =>
    refine h.go_on (fun e => ?_) (fun hst => nomatch hst) (fun hl => nomatch hl)
    exact Nat.add_le_add_left (hcount e) _

theorem count_drop_le (batch : List E) (done : ℕ) (e : E) :
    ((Recorder.head o batch).drop done ++ Recorder.rest o batch).count e ≤ batch.count e := by
  have hdrop := ((Recorder.head o batch).drop_sublist done).count_le e
  rw [List.count_append, ← @count_head_rest E _ o batch e]
  omega

theorem Kept.answer (h : Kept o r) {a : Answer} (hs : r.answer o a = some r') : Kept o r' := by
  unfold Recorder.answer at hs
  split at hs
  next batch stopping hloop =>
    have hstopping : stopping = true → r.stop = true := fun hst =>
      h.stopping (by rw [hloop]; exact hst)
    cases a with
    | ok =>
      cases hs
      refine h.accept (fun x => ?_) hstopping rfl
      rw [hloop]
      have hbatch := @count_head_rest E _ o batch x
      simp only [Loop.held]
      omega
    | invalid =>
      cases hs
      refine h.go_on (fun x => ?_) hstopping (fun hl => nomatch hl)
      rw [hloop]
      simp only [Loop.held, List.drop_zero, head_append_rest]
      exact le_rfl
    | error accepted =>
      cases hs
      refine h.committed.failed (fun x => ?_) hstopping
      rw [Recorder.committed, hloop]
      exact le_rfl
  next batch done stopping hloop =>
    obtain ⟨e, he, rfl⟩ := Option.map_eq_some_iff.mp hs
    have hstopping : stopping = true → r.stop = true := fun hst =>
      h.stopping (by rw [hloop]; exact hst)
    have hdrop : (Recorder.head o batch).drop done =
      e :: (Recorder.head o batch).drop (done + 1) := by
      obtain ⟨hlt, rfl⟩ := List.getElem?_eq_some_iff.mp he
      exact List.drop_eq_getElem_cons hlt
    cases a with
    | ok =>
      refine @Kept.accept E _ o r h [e] _ (fun x => ?_) hstopping rfl
      rw [hloop]
      simp only [Loop.held, hdrop, List.count_append, List.count_cons, List.count_nil]
      omega
    | invalid =>
      refine h.log (fun x => ?_) hstopping rfl
      rw [hloop]
      simp only [Recorder.undelivered, Loop.held, hdrop, List.count_append, List.count_cons]
      omega
    | error accepted =>
      refine h.committed.failed (fun x => ?_) hstopping
      rw [Recorder.committed, hloop]
      exact count_drop_le batch done x
  next => cases hs

theorem Kept.step (h : Kept o r) {l : Label E} (hcareful : careful r l = true)
    (hs : r.step o l = some r') : Kept o r' := by
  cases l with
  | record e =>
    cases hs
    exact h.record e
  | check i => exact h.check hs
  | enqueue i => exact h.enqueue hs
  | close =>
    simp only [Recorder.step] at hs
    split_ifs at hs
    cases hs
    exact ⟨h.count, fun _ => rfl, h.stopping, h.last⟩
  | stop =>
    simp only [Recorder.step] at hs
    split_ifs at hs with hclosed
    cases hs
    exact ⟨h.count, fun _ => hclosed.1, fun _ => rfl, h.last⟩
  | answer a => exact h.answer hs
  | _ => exact h.move (.of_step rfl hs) hcareful

/-- **No audit event is lost silently**: once the loop has stopped and every `Record` has returned,
every event that was passed was accepted or written to the log, as often as it was passed. -/
theorem none_lost {ls : List (Label E)}
    (h : Runs (Recorder.step o) (fun r l => careful r l = true) .init ls r)
    (hstopped : r.loop = .stopped) (hreturned : r.callers = []) :
    ∀ e, r.passed.count e ≤ r.accepted.count e + (r.logged.map Prod.fst).count e := by
  have hkept : Kept o r := Runs.inv (fun _ _ _ hr hl hstep => hr.step hl hstep) h .init
  intro e
  have he := hkept.count e
  have hqueue := (hkept.last (by rw [hstopped]; rfl)).1
  rw [Recorder.found, hreturned, hqueue, hstopped] at he
  simpa only [List.map_nil, Loop.held, List.count_nil, Nat.zero_add] using he

/-- Batches of two; the service refuses one event and then cannot be reached. -/
def refusedThenUnreachable : List (Label ℕ) :=
  [.record 0, .check 0, .enqueue 0, .record 1, .check 0, .enqueue 0, .take, .take, .go, .go,
    .answer .invalid, .answer .ok, .answer .invalid, .go, .record 2, .check 0, .enqueue 0, .close,
    .record 3, .check 0, .stop, .see, .go, .go, .go, .answer (.error false), .go, .go, .go]

/-- One event is accepted, and the log has the other three. -/
theorem none_lost_refusedThenUnreachable :
    ∃ r : Recorder ℕ, r.passed = [3, 2, 1, 0] ∧ r.accepted = [0] ∧
      r.logged = [(2, .unreachable), (3, .closed), (1, .malformed)] ∧
      ∀ e, r.passed.count e ≤ r.accepted.count e + (r.logged.map Prod.fst).count e := by
  obtain ⟨r, hrun, hpassed, haccepted, hlogged, hstopped, hreturned⟩ : ∃ r : Recorder ℕ,
      Runs (Recorder.step (.new 0 2))
        (fun r l => careful r l = true) .init refusedThenUnreachable r ∧
      r.passed = [3, 2, 1, 0] ∧ r.accepted = [0] ∧
      r.logged = [(2, .unreachable), (3, .closed), (1, .malformed)] ∧ r.loop = .stopped ∧
      r.callers = [] := exists_of_run (by decide +kernel)
  exact ⟨r, hpassed, haccepted, hlogged, none_lost hrun hstopped hreturned⟩

/-- A caller has seen the recorder open, and puts its event into the queue after the loop has
stopped. -/
def queuedTooLate : List (Label ℕ) :=
  [.record 0, .check 0, .close, .stop, .see, .go, .go, .enqueue 0]

/-- The event is neither accepted nor written to the log. -/
theorem lost_queuedTooLate :
    ∃ r : Recorder ℕ,
      Runs (Recorder.step (.new 0 0)) (fun _ _ => true = true) .init queuedTooLate r ∧
      r.loop = .stopped ∧ r.callers = [] ∧ r.passed = [0] ∧ r.accepted = [] ∧ r.logged = [] :=
  exists_of_run (by decide +kernel)

end Jarvis.AuditLog
