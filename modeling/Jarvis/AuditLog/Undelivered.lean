import Jarvis.AuditLog.Delivery
import Mathlib

/-!
# Undelivered events are counted once

A batch that the service refuses is sent again one event at a time. When a call then fails, the
whole batch is tried again, the events that were answered for included: an event that was refused is
written to the log and counted once more, and one that was accepted may be written to the log at
shutdown. `definite` says that nothing of the kind happens; in between an event is either ahead of
the service's answer or has been logged, never both (`Once.logged`).
-/

namespace Jarvis.AuditLog

open Pool Steps

variable {E : Type} [DecidableEq E] {o : Options} {r r' : Recorder E}

/-- How often an event is with a caller or in the queue. -/
def Recorder.ahead (r : Recorder E) (e : E) : ℕ :=
  (r.callers.map Caller.event).count e + r.queue.count e

/-- Every event is answered for once: the service refuses no event that it has accepted, a call that
fails part way through a refused batch comes before an event of it was refused, and no event of a
batch that is given up at shutdown was accepted, by an earlier call or by the one that has
failed. -/
def definite (o : Options) (r : Recorder E) : Label E → Bool
  | .answer .invalid =>
    match r.loop with
    | .resending batch done _ => (Recorder.head o batch)[done]?.all fun e => e ∉ r.accepted
    | _ => true
  | .answer (.error accepted) =>
    match r.loop with
    | .sending batch true => !accepted && batch.all fun e => e ∉ r.accepted
    | .resending batch done stopping =>
      (((Recorder.head o batch).take done).all fun e => e ∉ r.logged.map Prod.fst) &&
        (!stopping || !accepted && batch.all fun e => e ∉ r.accepted)
    | _ => true
  | _ => true

/-- What holds of a recorder whose events all differ. -/
structure Once (o : Options) (r : Recorder E) : Prop where
  known : ∀ e, e ∉ r.passed →
    r.ahead e + r.loop.batch.count e + r.accepted.count e + (r.logged.map Prod.fst).count e = 0
  batch : ∀ e, r.ahead e + r.loop.batch.count e ≤ 1
  logged : ∀ e, r.ahead e + (r.loop.held o).count e + (r.logged.map Prod.fst).count e ≤ 1
  accepted : ∀ e ∈ r.accepted, r.ahead e = 0 ∧ (r.logged.map Prod.fst).count e = 0
  dropping : ∀ batch, r.loop = .dropping batch → ∀ e ∈ batch, e ∉ r.accepted
  dropped : r.dropped = r.logged.length

theorem Once.init : Once o (Recorder.init : Recorder E) where
  known _ _ := rfl
  batch _ := Nat.zero_le _
  logged _ := Nat.zero_le _
  accepted _ he := nomatch he
  dropping _ h := nomatch h
  dropped := rfl

theorem count_held_le (loop : Loop E) (e : E) : (loop.held o).count e ≤ loop.batch.count e := by
  cases loop with
  | resending batch done stopping => exact count_drop_le batch done e
  | _ => exact le_rfl

/-- What is held of a batch again after a failure was held before, or was answered for. -/
theorem count_batch_le (batch : List E) (done : ℕ) (e : E) : batch.count e ≤
    ((Recorder.head o batch).drop done ++ Recorder.rest o batch).count e +
      ((Recorder.head o batch).take done).count e := by
  have hbatch := @count_head_rest E _ o batch e
  have hhead : ((Recorder.head o batch).take done).count e +
    ((Recorder.head o batch).drop done).count e =
      (Recorder.head o batch).count e := by
    rw [← List.count_append, List.take_append_drop]
  rw [List.count_append]
  omega

/-! ### The callers -/

section

variable (h : Once o r)
include h

theorem Once.record {e : E} (hnew : e ∉ r.passed) :
    Once o { r with passed := e :: r.passed, callers := ⟨e, false⟩ :: r.callers } := by
  have hahead : ∀ x, Recorder.ahead
      { r with passed := e :: r.passed, callers := ⟨e, false⟩ :: r.callers } x =
        r.ahead x + if e == x then 1 else 0 := by
    intro x
    simp only [Recorder.ahead, List.map_cons, List.count_cons]
    omega
  have hzero := h.known e hnew
  refine ⟨fun x hx => ?_, fun x => ?_, fun x => ?_, fun x hx => ?_, h.dropping, h.dropped⟩
  · obtain ⟨hne, hx⟩ := not_or.mp (mt List.mem_cons.mpr hx)
    have := h.known x hx
    have hne : (e == x) = false := beq_false_of_ne (Ne.symm hne)
    simp only [hahead, hne, Bool.false_eq_true, if_false]
    omega
  · rw [hahead]
    have := h.batch x
    split_ifs with hex
    · obtain rfl := eq_of_beq hex
      simp only at this ⊢
      omega
    · simpa using this
  · rw [hahead]
    have := h.logged x
    have hheld := @count_held_le E _ o r.loop x
    split_ifs with hex
    · obtain rfl := eq_of_beq hex
      simp only at this ⊢
      omega
    · simpa using this
  · rw [hahead]
    have hne : (e == x) = false := by
      refine beq_false_of_ne fun hex => ?_
      subst hex
      have := List.count_pos_iff.mpr hx
      simp only at this
      omega
    simpa [hne] using h.accepted x hx

/-- A caller's event goes into the queue, or stays with the caller. -/
theorem Once.move {callers : List (Caller E)} {queue : List E}
    (hcount : ∀ e, (callers.map Caller.event).count e + queue.count e = r.ahead e) :
    Once o { r with callers := callers, queue := queue } := by
  refine ⟨fun e he => ?_, fun e => ?_, fun e => ?_, fun e he => ?_, h.dropping, h.dropped⟩
  · simpa only [Recorder.ahead, hcount e] using h.known e he
  · simpa only [Recorder.ahead, hcount e] using h.batch e
  · simpa only [Recorder.ahead, hcount e] using h.logged e
  · simpa only [Recorder.ahead, hcount e] using h.accepted e he

/-- An event is written to the log that has not been answered for. -/
theorem Once.log {callers : List (Caller E)} {queue : List E} {loop : Loop E} {e : E} {why : Why}
    (haccepted : e ∉ r.accepted)
    (hbatch : ∀ x, (callers.map Caller.event).count x + queue.count x + loop.batch.count x ≤
      r.ahead x + r.loop.batch.count x)
    (hheld : ∀ x, (callers.map Caller.event).count x + queue.count x + (loop.held o).count x +
      (if e == x then 1 else 0) = r.ahead x + (r.loop.held o).count x)
    (hahead : ∀ x, (callers.map Caller.event).count x + queue.count x ≤ r.ahead x)
    (hdropping : ∀ batch, loop = .dropping batch → ∀ x ∈ batch, x ∉ r.accepted) :
    Once o { r.undelivered e why with callers := callers, queue := queue, loop := loop } := by
  have hlogged : ∀ x, (((e, why) :: r.logged).map Prod.fst).count x =
      (r.logged.map Prod.fst).count x + if e == x then 1 else 0 := by
    intro x
    rw [List.map_cons, List.count_cons]
  refine ⟨fun x hx => ?_, fun x => ?_, fun x => ?_, fun x hx => ?_, hdropping, ?_⟩
  · have hknown := h.known x hx
    have hb := hbatch x
    have hh := hheld x
    have hle := @count_held_le E _ o r.loop x
    simp only [Recorder.ahead, Recorder.undelivered, hlogged] at hknown hb hh ⊢
    omega
  · exact (hbatch x).trans (h.batch x)
  · have hl := h.logged x
    have hh := hheld x
    simp only [Recorder.ahead, Recorder.undelivered, hlogged] at hl hh ⊢
    omega
  · obtain ⟨hzero, hnot⟩ := h.accepted x hx
    have hne : (e == x) = false := beq_false_of_ne fun hex => haccepted (hex ▸ hx)
    have hle := hahead x
    simp only [Recorder.ahead, Recorder.undelivered, hlogged, hne] at hzero hnot hle ⊢
    exact ⟨by omega, by simpa using hnot⟩
  · simp only [Recorder.undelivered, h.dropped, List.length_cons]

theorem Once.not_accepted_caller {i : ℕ} {c : Caller E} (hc : r.callers[i]? = some c) :
    c.event ∉ r.accepted := by
  intro he
  have hzero := (h.accepted _ he).1
  rw [Recorder.ahead, count_callers hc] at hzero
  simp at hzero

/-- A caller writes its event to the log and returns. -/
theorem Once.refuse {i : ℕ} {c : Caller E} {why : Why} (hc : r.callers[i]? = some c) :
    Once o ((r.undelivered c.event why).returned i) := by
  refine h.log (h.not_accepted_caller hc) (fun x => ?_) (fun x => ?_) (fun x => ?_) h.dropping
  all_goals
    rw [Recorder.ahead, count_callers hc x]
    simp only [Recorder.undelivered]
    omega

theorem Once.check {i : ℕ} (hs : r.check i = some r') : Once o r' := by
  unfold Recorder.check at hs
  split at hs
  next e hc =>
    split_ifs at hs
    · cases hs
      exact h.refuse hc
    · cases hs
      refine h.move fun x => ?_
      have hset := ((set_perm ⟨e, true⟩ hc).map Caller.event).count_eq x
      rw [List.map_cons, List.count_cons] at hset
      rw [Recorder.ahead, hset, count_callers hc x]
  next => cases hs

theorem Once.enqueue {i : ℕ} (hs : r.enqueue o i = some r') : Once o r' := by
  unfold Recorder.enqueue at hs
  split at hs
  next e hc =>
    split_ifs at hs
    · cases hs
      refine h.move fun x => ?_
      simp only [Recorder.ahead, count_callers hc x, List.count_append, List.count_singleton]
      omega
    · cases hs
      exact h.refuse hc
  next => cases hs

/-! ### The loop -/

/-- The loop goes on with the events that it holds, and may take one from the queue. -/
theorem Once.go_on {queue : List E} {loop : Loop E} (hqueue : ∀ e, queue.count e ≤ r.queue.count e)
    (hbatch : ∀ e, queue.count e + loop.batch.count e ≤ r.queue.count e + r.loop.batch.count e)
    (hlogged : ∀ e, r.ahead e + (loop.held o).count e + queue.count e +
      (r.logged.map Prod.fst).count e ≤ 1 + r.queue.count e)
    (hdropping : ∀ batch, loop = .dropping batch → ∀ e ∈ batch, e ∉ r.accepted) :
    Once o { r with queue := queue, loop := loop } := by
  refine ⟨fun e he => ?_, fun e => ?_, fun e => ?_, fun e he => ?_, hdropping, h.dropped⟩
  · have hknown := h.known e he
    have hb := hbatch e
    simp only [Recorder.ahead] at hknown ⊢
    omega
  · have hb := h.batch e
    have hle := hbatch e
    simp only [Recorder.ahead] at hb ⊢
    omega
  · have hl := hlogged e
    simp only [Recorder.ahead] at hl ⊢
    omega
  · obtain ⟨hzero, hnot⟩ := h.accepted e he
    have hle := hqueue e
    simp only [Recorder.ahead] at hzero ⊢
    exact ⟨by omega, hnot⟩

/-- The loop goes on and holds what it held, but for an event from the queue. -/
theorem Once.go_on_held {queue : List E} {loop : Loop E}
    (hqueue : ∀ e, queue.count e ≤ r.queue.count e)
    (hbatch : ∀ e, queue.count e + loop.batch.count e ≤ r.queue.count e + r.loop.batch.count e)
    (hheld : ∀ e, queue.count e + (loop.held o).count e ≤ r.queue.count e + (r.loop.held o).count e)
    (hdropping : ∀ batch, loop = .dropping batch → ∀ e ∈ batch, e ∉ r.accepted) :
    Once o { r with queue := queue, loop := loop } := by
  refine h.go_on hqueue hbatch (fun e => ?_) hdropping
  have hl := h.logged e
  have hle := hheld e
  omega

/-- Events of the loop are accepted. It may hold them still, when the call has failed all the
same. -/
theorem Once.accept {events : List E} {loop : Loop E}
    (hevents : ∀ e, events.count e ≤ (r.loop.held o).count e)
    (hheld : ∀ e, (loop.held o).count e ≤ (r.loop.held o).count e)
    (hbatch : ∀ e, loop.batch.count e ≤ r.loop.batch.count e)
    (hdropping : ∀ batch, loop ≠ .dropping batch) :
    Once o { r with accepted := events ++ r.accepted, loop := loop } := by
  refine ⟨fun e he => ?_, fun e => ?_, fun e => ?_, fun e he => ?_,
    fun batch hl => absurd hl (hdropping batch), h.dropped⟩
  · have hknown := h.known e he
    have hb := hbatch e
    have hle := (hevents e).trans (count_held_le r.loop e)
    simp only [Recorder.ahead, List.count_append] at hknown ⊢
    omega
  · exact (Nat.add_le_add_left (hbatch e) _).trans (h.batch e)
  · have hl := h.logged e
    have hle := hheld e
    simp only [Recorder.ahead] at hl ⊢
    omega
  · rcases List.mem_append.mp he with he | he
    · -- It was held, so that it is neither ahead of the loop nor logged.
      have hpos := List.count_pos_iff.mpr he
      have hl := h.logged e
      have hle := hevents e
      simp only [Recorder.ahead] at hl ⊢
      omega
    · exact h.accepted e he

/-- A call may have been accepted that failed. -/
theorem Once.committed {accepted : Bool} {events : List E}
    (hevents : ∀ e, events.count e ≤ (r.loop.held o).count e)
    (hdropping : ∀ batch, r.loop ≠ .dropping batch) : Once o (r.committed accepted events) := by
  refine h.accept (fun e => ?_) (fun _ => le_rfl) (fun _ => le_rfl) hdropping
  split_ifs
  · exact hevents e
  · exact Nat.zero_le _

/-- A batch that could not be sent is held again, if none of it was logged. -/
theorem Once.failed {batch : List E} {stopping : Bool} (hbatch : r.loop.batch = batch)
    (hlogged : ∀ e ∈ batch, (r.logged.map Prod.fst).count e = 0)
    (haccepted : stopping = true → ∀ e ∈ batch, e ∉ r.accepted) :
    Once o (r.failed batch stopping) := by
  have hsum : ∀ e, r.ahead e + batch.count e + r.queue.count e + (r.logged.map Prod.fst).count e ≤
      1 + r.queue.count e := by
    intro e
    have hb := h.batch e
    have hl := h.logged e
    rw [hbatch] at hb
    by_cases he : e ∈ batch
    · have := hlogged e he
      omega
    · have := List.count_eq_zero.mpr he
      omega
  cases stopping with
  | true =>
    refine h.go_on (fun _ => le_rfl) (fun e => ?_) hsum (fun batch' hl e he => ?_)
    · rw [hbatch]
      exact le_rfl
    · obtain rfl := Loop.dropping.inj hl
      exact haccepted rfl e he
  | false =>
    refine h.go_on (fun _ => le_rfl) (fun e => ?_) hsum (by rintro _ ⟨⟩)
    rw [hbatch]
    exact le_rfl

theorem Once.step_loop {l : Label E} (hm : Move o r l r') : Once o r' := by
  cases hm with
  | turn hheld hbatch hdropping _ _ =>
    exact h.go_on_held (fun _ => le_rfl) (fun e => Nat.add_le_add_left (hbatch.count_le e) _)
      (fun _ => by rw [hheld]) (fun batch hl => absurd hl (hdropping batch))
  | take hqueue hheld hbatch hdropping _ _ =>
    refine h.go_on_held (fun x => ?_) (fun x => ?_) (fun x => ?_)
      (fun batch hl => absurd hl (hdropping batch))
    all_goals
      simp only [hqueue, hheld, hbatch, List.count_append, List.count_cons, List.count_nil]
      omega
  | drop hloop =>
    have hnot := h.dropping _ hloop
    refine h.log (hnot _ List.mem_cons_self) (fun x => ?_) (fun x => ?_) (fun _ => le_rfl)
      (fun batch' hl x hx => ?_)
    · simp only [hloop, Recorder.undelivered, Recorder.ahead, Loop.batch, List.count_cons]
      omega
    · simp only [hloop, Recorder.undelivered, Recorder.ahead, Loop.held, List.count_cons]
      omega
    · obtain rfl := Loop.dropping.inj hl
      exact hnot x (List.mem_cons_of_mem _ hx)
  | @empty e queue hloop hqueue =>
    have hahead : ∀ x, r.ahead x = (r.callers.map Caller.event).count x + queue.count x +
        if e == x then 1 else 0 := by
      intro x
      rw [Recorder.ahead, hqueue, List.count_cons]
      omega
    have hnot : e ∉ r.accepted := by
      intro he
      have hzero := (h.accepted e he).1
      simp [hahead] at hzero
    refine h.log hnot (fun x => ?_) (fun x => ?_) (fun x => ?_)
      (fun batch hl => absurd (hloop.symm.trans hl) (by rintro ⟨⟩))
    all_goals
      simp only [hahead, hloop, Recorder.undelivered, Loop.batch, Loop.held, List.count_nil]
      omega

theorem Once.answer {a : Answer} (hdefinite : definite o r (.answer a) = true)
    (hs : r.answer o a = some r') : Once o r' := by
  unfold Recorder.answer at hs
  -- What the loop holds has not been logged.
  have hunlogged : ∀ e ∈ r.loop.held o, (r.logged.map Prod.fst).count e = 0 := by
    intro e he
    have hpos := List.count_pos_iff.mpr he
    have hl := h.logged e
    omega
  -- Neither this call nor an earlier one was accepted with an event of the batch.
  have hgiven {batch events : List E} {accepted : Bool}
      (hall : accepted = false ∧ (batch.all fun e => e ∉ r.accepted) = true) :
      ∀ e ∈ batch, e ∉ (r.committed accepted events).accepted := by
    simpa [Recorder.committed, hall.1] using hall.2
  split at hs
  next batch stopping hloop =>
    rw [hloop] at hunlogged
    cases a with
    | ok =>
      cases hs
      refine h.accept (fun x => ?_) (fun x => ?_) (fun x => ?_) (by rintro _ ⟨⟩)
      all_goals
        have hbatch := @count_head_rest E _ o batch x
        simp only [hloop, Loop.held, Loop.batch]
        omega
    | invalid =>
      cases hs
      refine h.go_on_held (fun _ => le_rfl) (fun x => ?_) (fun x => ?_) (by rintro _ ⟨⟩)
      · rw [hloop]
        exact le_rfl
      · simp only [hloop, Loop.held, List.drop_zero, head_append_rest]
        exact le_rfl
    | error accepted =>
      cases hs
      have hsent : Once o (r.committed accepted (Recorder.head o batch)) := by
        refine h.committed (fun x => ?_) (by simp [hloop])
        rw [hloop]
        exact (List.take_sublist _ _).count_le x
      refine hsent.failed (by rw [Recorder.committed, hloop]; rfl) hunlogged fun hstopping => ?_
      subst hstopping
      simp only [definite, hloop, Bool.and_eq_true, Bool.not_eq_true'] at hdefinite
      exact hgiven hdefinite
  next batch done stopping hloop =>
    obtain ⟨e, he, rfl⟩ := Option.map_eq_some_iff.mp hs
    rw [hloop] at hunlogged
    have hdrop : (Recorder.head o batch).drop done =
      e :: (Recorder.head o batch).drop (done + 1) := by
      obtain ⟨hlt, rfl⟩ := List.getElem?_eq_some_iff.mp he
      exact List.drop_eq_getElem_cons hlt
    have hone : ∀ x, [e].count x ≤ (r.loop.held o).count x := by
      intro x
      simp only [hloop, Loop.held, hdrop, List.count_append, List.count_cons, List.count_nil]
      omega
    cases a with
    | ok =>
      refine @Once.accept E _ o r h [e] _ hone (fun x => ?_) (fun x => ?_) (by rintro _ ⟨⟩)
      · simp only [hloop, Loop.held, hdrop, List.count_append, List.count_cons]
        omega
      · rw [hloop]
        exact le_rfl
    | invalid =>
      simp only [definite, hloop, he, Option.all_some, decide_eq_true_eq] at hdefinite
      refine h.log hdefinite (fun x => ?_) (fun x => ?_) (fun _ => le_rfl) (by rintro _ ⟨⟩)
      · rw [hloop]
        exact le_rfl
      · simp only [hloop, Recorder.undelivered, Recorder.ahead, Loop.held, hdrop, List.count_append,
          List.count_cons]
        omega
    | error accepted =>
      simp only [definite, hloop, Bool.and_eq_true, Bool.or_eq_true, Bool.not_eq_true',
        List.all_eq_true, decide_eq_true_eq] at hdefinite
      obtain ⟨hnot, hstop⟩ := hdefinite
      have hsent : Once o (r.committed accepted [e]) := h.committed hone (by simp [hloop])
      refine hsent.failed (by rw [Recorder.committed, hloop]; rfl)
        (fun x hx => ?_) fun hstopping => ?_
      · -- An event of the batch is still held, or was answered for and not refused.
        have hpos := List.count_pos_iff.mpr hx
        have hle := @count_batch_le E _ o batch done x
        by_cases hheld : x ∈ (Recorder.head o batch).drop done ++ Recorder.rest o batch
        · exact hunlogged x hheld
        · have hzero := List.count_eq_zero.mpr hheld
          exact List.count_eq_zero.mpr (hnot x (List.count_pos_iff.mp (by omega)))
      · obtain ⟨hfailed, hbatch⟩ := hstop.resolve_left (by simp [hstopping])
        exact hgiven ⟨hfailed, by simpa using hbatch⟩
  next => cases hs

theorem Once.step {l : Label E} (hdefinite : definite o r l = true) (hs : r.step o l = some r')
    (hnew : r'.passed.Nodup) : Once o r' := by
  cases l with
  | record e =>
    cases hs
    exact h.record (List.nodup_cons.mp hnew).1
  | check i => exact h.check hs
  | enqueue i => exact h.enqueue hs
  | close =>
    simp only [Recorder.step] at hs
    split_ifs at hs
    cases hs
    exact ⟨h.known, h.batch, h.logged, h.accepted, h.dropping, h.dropped⟩
  | stop =>
    simp only [Recorder.step] at hs
    split_ifs at hs
    cases hs
    exact ⟨h.known, h.batch, h.logged, h.accepted, h.dropping, h.dropped⟩
  | answer a => exact h.answer hdefinite hs
  | _ => exact h.step_loop (.of_step rfl hs)

end

omit [DecidableEq E] in
/-- What was passed stays passed. -/
theorem passed_suffix {l : Label E} (hs : r.step o l = some r') : r.passed <:+ r'.passed := by
  cases l with
  | record e =>
    cases hs
    exact List.suffix_cons e r.passed
  | answer a =>
    simp only [Recorder.step, Recorder.answer] at hs
    split at hs
    · cases a <;> cases hs <;> exact List.suffix_rfl
    · obtain ⟨e, -, rfl⟩ := Option.map_eq_some_iff.mp hs
      cases a <;> exact List.suffix_rfl
    · cases hs
  | _ =>
    simp only [Recorder.step, Recorder.check, Recorder.enqueue, Recorder.go] at hs
    repeat' split at hs
    all_goals cases hs
    all_goals exact List.suffix_rfl

theorem once_of_runs {ls : List (Label E)}
    (h : Runs (Recorder.step o) (fun r l => definite o r l = true) .init ls r) :
    r.passed.Nodup → Once o r := by
  refine Runs.inv (P := fun r => r.passed.Nodup → Once o r) (fun r l r' hr hl hstep hnew => ?_) h
    (fun _ => .init)
  exact (hr (hnew.sublist (passed_suffix hstep).sublist)).step hl hstep hnew

/-- **Undelivered events are counted once**: every event, each call of `Record` making its own, is
written to the log at most once and never once the service has accepted it, and `Dropped` is the
number of events that were written. -/
theorem undelivered_once {ls : List (Label E)}
    (h : Runs (Recorder.step o) (fun r l => definite o r l = true) .init ls r)
    (hnew : r.passed.Nodup) :
    (r.logged.map Prod.fst).Nodup ∧ (∀ e ∈ r.accepted, e ∉ r.logged.map Prod.fst) ∧
      r.dropped = (r.logged.map Prod.fst).toFinset.card := by
  have honce := once_of_runs h hnew
  have hnodup : (r.logged.map Prod.fst).Nodup := by
    refine List.nodup_iff_count_le_one.mpr fun e => ?_
    have hl := honce.logged e
    omega
  refine ⟨hnodup, fun e he => List.count_eq_zero.mp (honce.accepted e he).2, ?_⟩
  rw [List.toFinset_card_of_nodup hnodup, List.length_map]
  exact honce.dropped

/-- The call with the first event of a refused batch times out, although the service has accepted
it; the batch is tried again, refused again and sent one event at a time, and the second event is
refused. -/
def failedPartWay : List (Label ℕ) :=
  [.record 0, .check 0, .enqueue 0, .record 1, .check 0, .enqueue 0, .take, .take, .go, .go,
    .answer .invalid, .answer (.error true), .elapse, .go, .go, .answer .invalid, .answer .ok,
    .answer .invalid, .go]

/-- The event that was accepted twice is not in the log. -/
theorem undelivered_once_failedPartWay :
    ∃ r : Recorder ℕ, r.passed = [1, 0] ∧ r.accepted = [0, 0] ∧ r.logged = [(1, .malformed)] ∧
      (r.logged.map Prod.fst).Nodup ∧ (∀ e ∈ r.accepted, e ∉ r.logged.map Prod.fst) ∧
      r.dropped = (r.logged.map Prod.fst).toFinset.card := by
  obtain ⟨r, hrun, hpassed, haccepted, hlogged⟩ : ∃ r : Recorder ℕ,
      Runs (Recorder.step (.new 0 2)) (fun r l => definite (.new 0 2) r l = true) .init
        failedPartWay r ∧
      r.passed = [1, 0] ∧ r.accepted = [0, 0] ∧ r.logged = [(1, .malformed)] :=
    exists_of_run (by decide +kernel)
  exact ⟨r, hpassed, haccepted, hlogged, undelivered_once hrun (by rw [hpassed]; decide)⟩

/-- The first event of a refused batch is refused, the call with the second fails, and the same
happens when the batch is tried again. -/
def refusedTwice : List (Label ℕ) :=
  [.record 0, .check 0, .enqueue 0, .record 1, .check 0, .enqueue 0, .take, .take, .go, .go,
    .answer .invalid, .answer .invalid, .answer (.error false), .elapse, .go, .go, .answer .invalid,
    .answer .invalid, .answer .ok, .go]

/-- The event is written to the log and counted twice. -/
theorem logged_refusedTwice :
    ∃ r : Recorder ℕ,
      Runs (Recorder.step (.new 0 2)) (fun _ _ => true = true) .init refusedTwice r ∧
      r.passed.Nodup ∧ r.logged = [(0, .malformed), (0, .malformed)] ∧ r.dropped = 2 ∧
      (r.logged.map Prod.fst).toFinset.card = 1 :=
  exists_of_run (by decide +kernel)

end Jarvis.AuditLog
